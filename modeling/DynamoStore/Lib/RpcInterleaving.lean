import DynamoStore.Lib.RpcPrograms
import Mathlib.Logic.Relation

/-!
# Interleaved runs of request handlers

Any number of requests are served at once. A handler runs without interruption
until it calls another node or returns; between two such segments every other
handler may take its own. A call either waits for the reply or is given up; a
request that was given up may still be served later, or never.

A run is restricted by two predicates: which requests come from outside, and
which state changes happen. A `Contract` says what holds between the segments,
how the states may evolve, and what requests and replies carry. If every handler
keeps its contract, every run does.
-/

namespace RpcInterleaving

open RpcPrograms

/-- What all handlers share: the node states, and the requests from outside. -/
structure Shared (N σ Q : Type) where
  state : N → σ
  issued : List (N × Q)

namespace Shared

variable {N σ Q : Type}

def issue (s : Shared N σ Q) (n : N) (q : Q) : Shared N σ Q :=
  { s with issued := (n, q) :: s.issued }

def modify [DecidableEq N] (s : Shared N σ Q) (n : N) (f : σ → σ) : Shared N σ Q :=
  { s with state := Function.update s.state n (f (s.state n)) }

variable (s : Shared N σ Q) (n : N)

@[simp] theorem issue_state (q : Q) : (s.issue n q).state = s.state := rfl

@[simp] theorem issue_issued (q : Q) : (s.issue n q).issued = (n, q) :: s.issued := rfl

variable [DecidableEq N]

@[simp] theorem modify_issued (f : σ → σ) : (s.modify n f).issued = s.issued := rfl

@[simp] theorem modify_self (f : σ → σ) : (s.modify n f).state n = f (s.state n) := by
  simp [modify]

@[simp] theorem modify_of_ne {m : N} (f : σ → σ) (h : m ≠ n) :
    (s.modify n f).state m = s.state m := by
  simp [modify, h]

end Shared

/-- A handler at work on one request. -/
structure Frame (N σ A Q R T : Type) where
  node : N
  request : Q
  prog : Prog N σ A Q R T R

/-- A thread is a stack of frames: the first one runs, the others wait for the
reply of the one before. -/
structure Config (N σ A Q R T : Type) where
  shared : Shared N σ Q
  threads : List (List (Frame N σ A Q R T))
  finished : List (N × Q × R)

def Config.start {N σ A Q R T : Type} (state : N → σ) : Config N σ A Q R T :=
  ⟨⟨state, []⟩, [], []⟩

section Steps

variable {N σ A Q R T α : Type} [DecidableEq N]
variable (apply : A → σ → σ) (serve : N → Q → Prog N σ A Q R T R)

/-- Part of a handler that runs without interruption. -/
inductive Segment (ok : A → σ → Prop) (n : N) :
    Prog N σ A Q R T α → Shared N σ Q → Prog N σ A Q R T α → Shared N σ Q → Prop
  | ret (a : α) (s : Shared N σ Q) : Segment ok n (.ret a) s (.ret a) s
  | call (dst : N) (q : Q) (k : Option R → Prog N σ A Q R T α) (s : Shared N σ Q) :
      Segment ok n (.call dst q k) s (.call dst q k) s
  | get {k : σ → Prog N σ A Q R T α} {s s' : Shared N σ Q} {p : Prog N σ A Q R T α} :
      Segment ok n (k (s.state n)) s p s' → Segment ok n (.get k) s p s'
  | act {a : A} {k : Prog N σ A Q R T α} {s s' : Shared N σ Q} {p : Prog N σ A Q R T α} :
      ok a (s.state n) → Segment ok n k (s.modify n (apply a)) p s' →
      Segment ok n (.act a k) s p s'
  | now (t : T) {k : T → Prog N σ A Q R T α} {s s' : Shared N σ Q} {p : Prog N σ A Q R T α} :
      Segment ok n (k t) s p s' → Segment ok n (.now k) s p s'
  | order {l : List N} (l' : List N) {k : List N → Prog N σ A Q R T α}
      {s s' : Shared N σ Q} {p : Prog N σ A Q R T α} :
      l'.Perm l → Segment ok n (k l') s p s' → Segment ok n (.order l k) s p s'

/-- A segment stops at a return or at a call. -/
theorem Segment.boundary {ok : A → σ → Prop} {n : N} {p p' : Prog N σ A Q R T α}
    {s s' : Shared N σ Q}
    (segment : Segment apply ok n p s p' s') :
    (∃ a, p' = .ret a) ∨ ∃ dst q k, p' = .call dst q k := by
  induction segment with
  | ret a s => exact Or.inl ⟨a, rfl⟩
  | call dst q k s => exact Or.inr ⟨dst, q, k, rfl⟩
  | get _ ih => exact ih
  | act _ _ ih => exact ih
  | now t _ ih => exact ih
  | order l' _ _ ih => exact ih

theorem Segment.of_ret {ok : A → σ → Prop} {n : N} {a : α} {p : Prog N σ A Q R T α}
    {s s' : Shared N σ Q} (segment : Segment apply ok n (.ret a) s p s') : p = .ret a ∧ s' = s := by
  cases segment
  exact ⟨rfl, rfl⟩

theorem Segment.mono {ok ok' : A → σ → Prop} (h : ∀ a s, ok a s → ok' a s) {n : N}
    {p p' : Prog N σ A Q R T α} {s s' : Shared N σ Q} (segment : Segment apply ok n p s p' s') :
    Segment apply ok' n p s p' s' := by
  induction segment with
  | ret a s => exact .ret a s
  | call dst q k s => exact .call dst q k s
  | get _ ih => exact .get ih
  | act hok _ ih => exact .act (h _ _ hok) ih
  | now t _ ih => exact .now t ih
  | order l' hl _ ih => exact .order l' hl ih

variable (allowed : N → Q → Prop) (ok : N → Q → A → σ → Prop)

inductive Step : Config N σ A Q R T → Config N σ A Q R T → Prop
  | issue {s threads finished} (n : N) (q : Q) : allowed n q →
      Step ⟨s, threads, finished⟩ ⟨s.issue n q, [⟨n, q, serve n q⟩] :: threads, finished⟩
  | segment {s s' before after stack finished} {f : Frame N σ A Q R T}
      {p : Prog N σ A Q R T R} : Segment apply (ok f.node f.request) f.node f.prog s p s' →
      Step ⟨s, before ++ (f :: stack) :: after, finished⟩
        ⟨s', before ++ ({ f with prog := p } :: stack) :: after, finished⟩
  | invoke {s before after stack finished dst q k} {f : Frame N σ A Q R T} :
      f.prog = .call dst q k →
      Step ⟨s, before ++ (f :: stack) :: after, finished⟩
        ⟨s, before ++ (⟨dst, q, serve dst q⟩ :: f :: stack) :: after, finished⟩
  | reply {s before after stack finished k r} {f g : Frame N σ A Q R T} :
      f.prog = .call g.node g.request k → g.prog = .ret r →
      Step ⟨s, before ++ (g :: f :: stack) :: after, finished⟩
        ⟨s, before ++ ({ f with prog := k (some r) } :: stack) :: after, finished⟩
  | abandon {s before after stack finished dst q k} {f : Frame N σ A Q R T} :
      f.prog = .call dst q k →
      Step ⟨s, before ++ (f :: stack) :: after, finished⟩
        ⟨s, before ++ [⟨dst, q, serve dst q⟩] :: ({ f with prog := k none } :: stack) :: after,
          finished⟩
  | finish (before) {s after finished r} {f : Frame N σ A Q R T} : f.prog = .ret r →
      Step ⟨s, before ++ [f] :: after, finished⟩
        ⟨s, before ++ after, (f.node, f.request, r) :: finished⟩

/-- The configurations that runs from `c` reach. -/
abbrev Reach : Config N σ A Q R T → Config N σ A Q R T → Prop :=
  Relation.ReflTransGen (Step apply serve allowed ok)

section Frames

variable {apply serve allowed ok} {c c' : Config N σ A Q R T}

/-- A restricted step is a step. -/
theorem Step.mono {ok' : N → Q → A → σ → Prop} (h : ∀ n q a s, ok n q a s → ok' n q a s)
    (hstep : Step apply serve allowed ok c c') : Step apply serve allowed ok' c c' := by
  cases hstep with
  | issue n q hallowed => exact .issue n q hallowed
  | segment hseg => exact .segment (hseg.mono apply (h _ _))
  | invoke hcall => exact .invoke hcall
  | reply hcall hret => exact .reply hcall hret
  | abandon hcall => exact .abandon hcall
  | finish before hret => exact .finish before hret

/-- What a step does to the node states and the requests from outside: a request comes in,
a handler runs up to its next boundary, or they stay. -/
theorem Step.shared (hstep : Step apply serve allowed ok c c') :
    (∃ n q, allowed n q ∧ c'.shared = c.shared.issue n q) ∨
      (∃ stack ∈ c.threads, ∃ f ∈ stack, ∃ p,
        Segment apply (ok f.node f.request) f.node f.prog c.shared p c'.shared) ∨
      c'.shared = c.shared := by
  cases hstep with
  | issue n q hallowed => exact Or.inl ⟨n, q, hallowed, rfl⟩
  | segment hseg =>
    exact Or.inr (Or.inl ⟨_, List.mem_append_right _ List.mem_cons_self, _, List.mem_cons_self,
      _, hseg⟩)
  | _ => exact Or.inr (Or.inr rfl)

/-- A step answers a request from outside only with what its handler returned. -/
theorem Step.finished (hstep : Step apply serve allowed ok c c') {x : N × Q × R}
    (hx : x ∈ c'.finished) : x ∈ c.finished ∨
      ∃ stack ∈ c.threads, ∃ f ∈ stack, ∃ r, f.prog = .ret r ∧ x = (f.node, f.request, r) := by
  cases hstep with
  | @finish before s after finished r f hret =>
    rcases List.mem_cons.mp hx with rfl | hx
    · exact Or.inr ⟨_, List.mem_append_right _ List.mem_cons_self, f, List.mem_cons_self, r,
        hret, rfl⟩
    · exact Or.inl hx
  | _ => exact Or.inl hx

/-- What a step makes of the frames: they stay, they are new, they have run up to their
next boundary, or they go on after a call. -/
theorem Step.frames {P P' : Frame N σ A Q R T → Prop} (hstep : Step apply serve allowed ok c c')
    (h : ∀ stack ∈ c.threads, ∀ f ∈ stack, P f) (stays : ∀ f, P f → P' f)
    (issued : ∀ n q, allowed n q → c'.shared = c.shared.issue n q → P' ⟨n, q, serve n q⟩)
    (moved : ∀ f p, P f → Segment apply (ok f.node f.request) f.node f.prog c.shared p c'.shared →
      P' { f with prog := p })
    (called : ∀ f dst q k, P f → f.prog = .call dst q k → P' ⟨dst, q, serve dst q⟩)
    (resumed : ∀ f dst q k r, P f → f.prog = .call dst q k →
      (∀ a, r = some a → ∃ g, P g ∧ g.node = dst ∧ g.request = q ∧ g.prog = .ret a) →
      P' { f with prog := k r }) :
    ∀ stack ∈ c'.threads, ∀ f ∈ stack, P' f := by
  have stay : ∀ stack : List (Frame N σ A Q R T), (∀ f ∈ stack, P f) → ∀ f ∈ stack, P' f :=
    fun stack hstack f hf => stays f (hstack f hf)
  cases hstep with
  | issue n q hallowed =>
    rw [List.forall_mem_cons, List.forall_mem_singleton]
    exact ⟨issued n q hallowed rfl, fun stack hs => stay stack (h stack hs)⟩
  | segment hseg =>
    simp only [List.forall_mem_append, List.forall_mem_cons] at h ⊢
    obtain ⟨hbefore, ⟨hf, hstack⟩, hafter⟩ := h
    exact ⟨fun stack hs => stay stack (hbefore stack hs), ⟨moved _ _ hf hseg, stay _ hstack⟩,
      fun stack hs => stay stack (hafter stack hs)⟩
  | invoke hcall =>
    simp only [List.forall_mem_append, List.forall_mem_cons] at h ⊢
    obtain ⟨hbefore, ⟨hf, hstack⟩, hafter⟩ := h
    exact ⟨fun stack hs => stay stack (hbefore stack hs),
      ⟨called _ _ _ _ hf hcall, stays _ hf, stay _ hstack⟩,
      fun stack hs => stay stack (hafter stack hs)⟩
  | @reply s before after stack finished k r f g hcall hret =>
    simp only [List.forall_mem_append, List.forall_mem_cons] at h ⊢
    obtain ⟨hbefore, ⟨hg, hf, hstack⟩, hafter⟩ := h
    have hreply : ∀ a, some r = some a →
        ∃ g', P g' ∧ g'.node = g.node ∧ g'.request = g.request ∧ g'.prog = .ret a := by
      rintro a ⟨⟩
      exact ⟨g, hg, rfl, rfl, hret⟩
    exact ⟨fun stack hs => stay stack (hbefore stack hs),
      ⟨resumed f _ _ k (some r) hf hcall hreply, stay _ hstack⟩,
      fun stack hs => stay stack (hafter stack hs)⟩
  | abandon hcall =>
    simp only [List.forall_mem_append, List.forall_mem_cons] at h ⊢
    obtain ⟨hbefore, ⟨hf, hstack⟩, hafter⟩ := h
    exact ⟨fun stack hs => stay stack (hbefore stack hs), ⟨called _ _ _ _ hf hcall, by simp⟩,
      ⟨resumed _ _ _ _ none hf hcall (by simp), stay _ hstack⟩,
      fun stack hs => stay stack (hafter stack hs)⟩
  | finish before hret =>
    simp only [List.forall_mem_append, List.forall_mem_cons] at h ⊢
    exact ⟨fun stack hs => stay stack (h.1 stack hs), fun stack hs => stay stack (h.2.2 stack hs)⟩

end Frames

section Invariants

variable {apply serve allowed ok} {I : N → σ → Prop} (keeps : ∀ n a s, I n s → I n (apply a s))

include keeps

theorem Segment.invariant {ok : A → σ → Prop} {n : N} {p p' : Prog N σ A Q R T α}
    {s s' : Shared N σ Q} (segment : Segment apply ok n p s p' s')
    (h : ∀ m, I m (s.state m)) : ∀ m, I m (s'.state m) := by
  induction segment with
  | ret a s => exact h
  | call dst q k s => exact h
  | get _ ih => exact ih h
  | @act a k s s' p _ _ ih =>
    refine ih fun m => ?_
    by_cases hm : m = n
    · subst hm
      rw [s.modify_self]
      exact keeps m a _ (h m)
    · rw [s.modify_of_ne n _ hm]
      exact h m
  | now t _ ih => exact ih h
  | order l' _ _ ih => exact ih h

/-- What every single state change preserves on its node holds in every run. -/
theorem invariant_of_reach {c c' : Config N σ A Q R T} (hreach : Reach apply serve allowed ok c c')
    (h : ∀ m, I m (c.shared.state m)) : ∀ m, I m (c'.shared.state m) := by
  induction hreach with
  | refl => exact h
  | tail _ hstep ih =>
    cases hstep with
    | segment hseg => exact hseg.invariant keeps ih
    | _ => exact ih

end Invariants

end Steps

/-- What the handlers rely on and guarantee. -/
structure Contract (N σ Q R : Type) where
  inv : Shared N σ Q → Prop
  evolves : Shared N σ Q → Shared N σ Q → Prop
  pre : N → Q → Shared N σ Q → Prop
  post : N → Q → R → Shared N σ Q → Prop
  refl : ∀ s, evolves s s
  trans : ∀ {s s' s''}, evolves s s' → evolves s' s'' → evolves s s''
  pre_stable : ∀ {n q s s'}, evolves s s' → pre n q s → pre n q s'
  post_stable : ∀ {n q r s s'}, evolves s s' → post n q r s → post n q r s'

namespace Contract

variable {N σ A Q R T α β : Type} [DecidableEq N] (C : Contract N σ Q R)
variable (apply : A → σ → σ)

/-- The weakest precondition of a program on node `n`: every state change keeps the
invariant and is an evolution, every request has its precondition, and while a
call is waiting anything may evolve. -/
def wp (ok : A → σ → Prop) (n : N) :
    Prog N σ A Q R T α → (α → Shared N σ Q → Prop) → Shared N σ Q → Prop
  | .ret a, Φ, s => Φ a s
  | .get k, Φ, s => wp ok n (k (s.state n)) Φ s
  | .act a k, Φ, s => ok a (s.state n) →
      C.inv (s.modify n (apply a)) ∧ C.evolves s (s.modify n (apply a)) ∧
        wp ok n k Φ (s.modify n (apply a))
  | .now k, Φ, s => ∀ t, wp ok n (k t) Φ s
  | .order l k, Φ, s => ∀ l', l'.Perm l → wp ok n (k l') Φ s
  | .call dst q k, Φ, s => C.pre dst q s ∧ ∀ s' r, C.evolves s s' → C.inv s' →
      (∀ a, r = some a → C.post dst q a s') → wp ok n (k r) Φ s'
  | .crash, _, _ => True

variable {C apply} {ok : A → σ → Prop} {n : N}

theorem wp_bind (p : Prog N σ A Q R T α) (f : α → Prog N σ A Q R T β)
    (Φ : β → Shared N σ Q → Prop) (s : Shared N σ Q) :
    C.wp apply ok n (p.bind f) Φ s ↔
      C.wp apply ok n p (fun a s' => C.wp apply ok n (f a) Φ s') s := by
  induction p generalizing s with
  | ret a => rfl
  | get k ih => exact ih _ s
  | act a k ih => simp only [Prog.bind, wp, ih]
  | now k ih => simp only [Prog.bind, wp, ih]
  | order l k ih => simp only [Prog.bind, wp, ih]
  | call dst q k ih => simp only [Prog.bind, wp, ih]
  | crash => rfl

theorem wp_mono (p : Prog N σ A Q R T α) {Φ Ψ : α → Shared N σ Q → Prop}
    (h : ∀ a s, Φ a s → Ψ a s) {s : Shared N σ Q} (hp : C.wp apply ok n p Φ s) :
    C.wp apply ok n p Ψ s := by
  induction p generalizing s with
  | ret a => exact h a s hp
  | get k ih => exact ih _ hp
  | act a k ih =>
    intro hok
    obtain ⟨hinv, hevo, hk⟩ := hp hok
    exact ⟨hinv, hevo, ih hk⟩
  | now k ih => exact fun t => ih t (hp t)
  | order l k ih => exact fun l' hl => ih l' (hp l' hl)
  | call dst q k ih =>
    exact ⟨hp.1, fun s' r hevo hinv hpost => ih r (hp.2 s' r hevo hinv hpost)⟩
  | crash => trivial

@[simp] theorem wp_ret (a : α) (Φ : α → Shared N σ Q → Prop) (s : Shared N σ Q) :
    C.wp apply ok n (.ret a : Prog N σ A Q R T α) Φ s ↔ Φ a s := Iff.rfl

@[simp] theorem wp_read (Φ : σ → Shared N σ Q → Prop) (s : Shared N σ Q) :
    C.wp apply ok n (Prog.read : Prog N σ A Q R T σ) Φ s ↔ Φ (s.state n) s := Iff.rfl

@[simp] theorem wp_perform (a : A) (Φ : Unit → Shared N σ Q → Prop) (s : Shared N σ Q) :
    C.wp apply ok n (Prog.perform a : Prog N σ A Q R T Unit) Φ s ↔ (ok a (s.state n) →
      C.inv (s.modify n (apply a)) ∧ C.evolves s (s.modify n (apply a)) ∧
        Φ () (s.modify n (apply a))) := Iff.rfl

@[simp] theorem wp_clock (Φ : T → Shared N σ Q → Prop) (s : Shared N σ Q) :
    C.wp apply ok n (Prog.clock : Prog N σ A Q R T T) Φ s ↔ ∀ t, Φ t s := Iff.rfl

@[simp] theorem wp_iterate (l : List N) (Φ : List N → Shared N σ Q → Prop) (s : Shared N σ Q) :
    C.wp apply ok n (Prog.iterate l : Prog N σ A Q R T (List N)) Φ s ↔
      ∀ l', l'.Perm l → Φ l' s := Iff.rfl

@[simp] theorem wp_send (dst : N) (q : Q) (Φ : Option R → Shared N σ Q → Prop)
    (s : Shared N σ Q) :
    C.wp apply ok n (Prog.send dst q : Prog N σ A Q R T (Option R)) Φ s ↔
      C.pre dst q s ∧ ∀ s' r, C.evolves s s' → C.inv s' →
        (∀ a, r = some a → C.post dst q a s') → Φ r s' := Iff.rfl

@[simp] theorem wp_crash (Φ : α → Shared N σ Q → Prop) (s : Shared N σ Q) :
    C.wp apply ok n (.crash : Prog N σ A Q R T α) Φ s := trivial

/-- A segment leads to a boundary whose precondition holds. -/
theorem wp_segment {p p' : Prog N σ A Q R T α} {s s' : Shared N σ Q}
    {Φ : α → Shared N σ Q → Prop} (segment : Segment apply ok n p s p' s')
    (hinv : C.inv s) (hp : C.wp apply ok n p Φ s) :
    C.inv s' ∧ C.evolves s s' ∧ C.wp apply ok n p' Φ s' := by
  induction segment with
  | ret a s => exact ⟨hinv, C.refl s, hp⟩
  | call dst q k s => exact ⟨hinv, C.refl s, hp⟩
  | get _ ih => exact ih hinv hp
  | act hok _ ih =>
    obtain ⟨hinv', hevo, hk⟩ := hp hok
    obtain ⟨hinv'', hevo', hk'⟩ := ih hinv' hk
    exact ⟨hinv'', C.trans hevo hevo', hk'⟩
  | now t _ ih => exact ih hinv (hp t)
  | order l' hl _ ih => exact ih hinv (hp l' hl)

variable (C apply) in
/-- Started with `P`, the program ends with `Φ`, and keeps the contract meanwhile. -/
def Safe (ok : A → σ → Prop) (n : N) (P : Shared N σ Q → Prop) (p : Prog N σ A Q R T α)
    (Φ : α → Shared N σ Q → Prop) : Prop :=
  ∀ s, C.inv s → P s →
    C.wp apply ok n p (fun a s' => C.inv s' ∧ C.evolves s s' ∧ Φ a s') s

variable (C) in
def Stable (P : Shared N σ Q → Prop) : Prop := ∀ {s s'}, C.evolves s s' → P s → P s'

variable {P : Shared N σ Q → Prop} {Φ Ψ : α → Shared N σ Q → Prop}

theorem Safe.bind {p : Prog N σ A Q R T α} {f : α → Prog N σ A Q R T β}
    {Ψ : β → Shared N σ Q → Prop} (hp : C.Safe apply ok n P p Φ)
    (hf : ∀ a, C.Safe apply ok n (Φ a) (f a) Ψ) : C.Safe apply ok n P (p.bind f) Ψ := by
  intro s hinv hP
  rw [wp_bind]
  refine wp_mono p ?_ (hp s hinv hP)
  rintro a s' ⟨hinv', hevo, hΦ⟩
  refine wp_mono (f a) ?_ (hf a s' hinv' hΦ)
  rintro b s'' ⟨hinv'', hevo', hΨ⟩
  exact ⟨hinv'', C.trans hevo hevo', hΨ⟩

theorem Safe.weaken {p : Prog N σ A Q R T α} (hp : C.Safe apply ok n P p Φ)
    (h : ∀ a s, Φ a s → Ψ a s) : C.Safe apply ok n P p Ψ :=
  fun s hinv hP => wp_mono p (fun a _ ⟨hinv', hevo, hΦ⟩ => ⟨hinv', hevo, h a _ hΦ⟩) (hp s hinv hP)

theorem Safe.strengthen {P' : Shared N σ Q → Prop} {p : Prog N σ A Q R T α}
    (hp : C.Safe apply ok n P p Φ) (h : ∀ s, P' s → P s) : C.Safe apply ok n P' p Φ :=
  fun s hinv hP => hp s hinv (h s hP)

/-- What the start state says about given values holds from then on. -/
theorem Safe.assume {p : Prog N σ A Q R T α} (fact : Prop)
    (h : ∀ s, C.inv s → P s → fact) (hp : fact → C.Safe apply ok n P p Φ) :
    C.Safe apply ok n P p Φ :=
  fun s hinv hP => hp (h s hinv hP) s hinv hP

/-- A stable consequence of the assumption still holds at the end. -/
theorem Safe.keep {P' : Shared N σ Q → Prop} {p : Prog N σ A Q R T α} (stable : C.Stable P)
    (h : ∀ s, P' s → P s) (hp : C.Safe apply ok n P' p Φ) :
    C.Safe apply ok n P' p fun a s => P s ∧ Φ a s :=
  fun s hinv hP => wp_mono p
    (fun _ _ ⟨hinv', hevo, hΦ⟩ => ⟨hinv', hevo, stable hevo (h s hP), hΦ⟩) (hp s hinv hP)

theorem Safe.ret {a : α} (h : ∀ s, P s → Φ a s) :
    C.Safe apply ok n P (.ret a : Prog N σ A Q R T α) Φ :=
  fun s hinv hP => ⟨hinv, C.refl s, h s hP⟩

theorem Safe.read : C.Safe apply ok n P (Prog.read : Prog N σ A Q R T σ)
    fun node s => P s ∧ node = s.state n :=
  fun s hinv hP => ⟨hinv, C.refl s, hP, rfl⟩

theorem Safe.clock : C.Safe apply ok n P (Prog.clock : Prog N σ A Q R T T) fun _ s => P s :=
  fun s hinv hP _ => ⟨hinv, C.refl s, hP⟩

theorem Safe.iterate (l : List N) :
    C.Safe apply ok n P (Prog.iterate l : Prog N σ A Q R T (List N))
      fun l' s => P s ∧ l'.Perm l :=
  fun s hinv hP _ hl => ⟨hinv, C.refl s, hP, hl⟩

theorem Safe.crash : C.Safe apply ok n P (.crash : Prog N σ A Q R T α) Φ :=
  fun _ _ _ => trivial

theorem Safe.perform {a : A} {Φ : Unit → Shared N σ Q → Prop}
    (h : ∀ s, C.inv s → P s → ok a (s.state n) → C.inv (s.modify n (apply a)) ∧
      C.evolves s (s.modify n (apply a)) ∧ Φ () (s.modify n (apply a))) :
    C.Safe apply ok n P (Prog.perform a : Prog N σ A Q R T Unit) Φ :=
  fun s hinv hP hok => by
    obtain ⟨hinv', hevo, hΦ⟩ := h s hinv hP hok
    exact ⟨hinv', hevo, hinv', hevo, hΦ⟩

theorem Safe.send {dst : N} {q : Q} (hpre : ∀ s, C.inv s → P s → C.pre dst q s) :
    C.Safe apply ok n P (Prog.send dst q : Prog N σ A Q R T (Option R))
      fun r s => ∀ a, r = some a → C.post dst q a s :=
  fun s hinv hP => ⟨hpre s hinv hP, fun _ _ hevo hinv' hpost => ⟨hinv', hevo, hpost⟩⟩

end Contract

/-- Every handler keeps the contract. -/
structure Verified {N σ A Q R T : Type} [DecidableEq N] (C : Contract N σ Q R)
    (apply : A → σ → σ) (serve : N → Q → Prog N σ A Q R T R) (allowed : N → Q → Prop)
    (ok : N → Q → A → σ → Prop) : Prop where
  issue : ∀ s n q, C.inv s → allowed n q →
    C.inv (s.issue n q) ∧ C.evolves s (s.issue n q) ∧ C.pre n q (s.issue n q)
  body : ∀ s n q, C.inv s → C.pre n q s →
    C.wp apply (ok n q) n (serve n q) (C.post n q) s

theorem Contract.Safe.body {N σ A Q R T : Type} [DecidableEq N] {C : Contract N σ Q R}
    {apply : A → σ → σ} {ok : A → σ → Prop} {n : N} {q : Q} {p : Prog N σ A Q R T R}
    (h : C.Safe apply ok n (C.pre n q) p (C.post n q)) {s : Shared N σ Q} (hinv : C.inv s)
    (hpre : C.pre n q s) : C.wp apply ok n p (C.post n q) s :=
  C.wp_mono p (fun _ _ h => h.2.2) (h s hinv hpre)

section Soundness

variable {N σ A Q R T : Type} [DecidableEq N] {C : Contract N σ Q R}
variable {apply : A → σ → σ} {serve : N → Q → Prog N σ A Q R T R} {allowed : N → Q → Prop}
variable {ok : N → Q → A → σ → Prop}

/-- At any later time the frame may go on. -/
def FrameOk (C : Contract N σ Q R) (apply : A → σ → σ) (ok : N → Q → A → σ → Prop)
    (s : Shared N σ Q) (f : Frame N σ A Q R T) : Prop :=
  ∀ s', C.evolves s s' → C.inv s' →
    C.wp apply (ok f.node f.request) f.node f.prog (C.post f.node f.request) s'

/-- What holds between two steps of a run. -/
structure ConfigOk (C : Contract N σ Q R) (apply : A → σ → σ) (ok : N → Q → A → σ → Prop)
    (c : Config N σ A Q R T) : Prop where
  inv : C.inv c.shared
  frames : ∀ stack ∈ c.threads, ∀ f ∈ stack, FrameOk C apply ok c.shared f
  finished : ∀ x ∈ c.finished, C.post x.1 x.2.1 x.2.2 c.shared

theorem FrameOk.later {s s' : Shared N σ Q} {f : Frame N σ A Q R T} (hevo : C.evolves s s')
    (h : FrameOk C apply ok s f) : FrameOk C apply ok s' f :=
  fun _ hevo' hinv => h _ (C.trans hevo hevo') hinv

theorem frameOk_serve (verified : Verified C apply serve allowed ok) {s : Shared N σ Q} {n : N}
    {q : Q} (hpre : C.pre n q s) : FrameOk C apply ok s ⟨n, q, serve n q⟩ :=
  fun s' hevo hinv => verified.body s' n q hinv (C.pre_stable hevo hpre)

/-- A waiting frame has sent a request whose precondition holds. -/
theorem FrameOk.pre_of_call {s : Shared N σ Q} {f : Frame N σ A Q R T} {dst : N} {q : Q}
    {k : Option R → Prog N σ A Q R T R} (h : FrameOk C apply ok s f) (hinv : C.inv s)
    (hf : f.prog = .call dst q k) : C.pre dst q s := by
  have hwp := h s (C.refl s) hinv
  rw [hf] at hwp
  exact hwp.1

/-- A frame at its end has a reply whose postcondition holds. -/
theorem FrameOk.post_of_ret {s : Shared N σ Q} {f : Frame N σ A Q R T} {r : R}
    (h : FrameOk C apply ok s f) (hinv : C.inv s) (hf : f.prog = .ret r) :
    C.post f.node f.request r s := by
  have hwp := h s (C.refl s) hinv
  rw [hf] at hwp
  exact hwp

theorem FrameOk.resume {s : Shared N σ Q} {f : Frame N σ A Q R T} {dst : N} {q : Q}
    {k : Option R → Prog N σ A Q R T R} {r : Option R} (h : FrameOk C apply ok s f)
    (hf : f.prog = .call dst q k) (hpost : ∀ a, r = some a → C.post dst q a s) :
    FrameOk C apply ok s { f with prog := k r } := by
  intro s' hevo hinv
  have hwp := h s' hevo hinv
  rw [hf] at hwp
  exact hwp.2 s' r (C.refl s') hinv fun a ha => C.post_stable hevo (hpost a ha)

/-- What holds at the end of a segment still holds when the frame goes on. -/
theorem frameOk_boundary {s : Shared N σ Q} {f : Frame N σ A Q R T}
    (hb : (∃ r, f.prog = .ret r) ∨ ∃ dst q k, f.prog = .call dst q k)
    (h : C.wp apply (ok f.node f.request) f.node f.prog (C.post f.node f.request) s) :
    FrameOk C apply ok s f := by
  intro s' hevo hinv
  rcases hb with ⟨r, hr⟩ | ⟨dst, q, k, hk⟩
  · rw [hr] at h ⊢
    exact C.post_stable hevo h
  · rw [hk] at h ⊢
    exact ⟨C.pre_stable hevo h.1, fun s'' r hevo' => h.2 s'' r (C.trans hevo hevo')⟩

/-- A step keeps the invariant, and the shared state evolves. -/
theorem ConfigOk.shared (verified : Verified C apply serve allowed ok)
    {c c' : Config N σ A Q R T} (h : ConfigOk C apply ok c)
    (hstep : Step apply serve allowed ok c c') :
    C.inv c'.shared ∧ C.evolves c.shared c'.shared := by
  rcases hstep.shared with ⟨n, q, hallowed, hshared⟩ | ⟨stack, hs, f, hf, p, hseg⟩ | hshared
  · obtain ⟨hinv, hevo, _⟩ := verified.issue _ n q h.inv hallowed
    rw [hshared]
    exact ⟨hinv, hevo⟩
  · have hwp := h.frames stack hs f hf _ (C.refl _) h.inv
    obtain ⟨hinv, hevo, _⟩ := C.wp_segment hseg h.inv hwp
    exact ⟨hinv, hevo⟩
  · rw [hshared]
    exact ⟨h.inv, C.refl _⟩

theorem ConfigOk.step (verified : Verified C apply serve allowed ok)
    {c c' : Config N σ A Q R T} (h : ConfigOk C apply ok c)
    (hstep : Step apply serve allowed ok c c') :
    ConfigOk C apply ok c' ∧ C.evolves c.shared c'.shared := by
  obtain ⟨hinv, hevo⟩ := h.shared verified hstep
  refine ⟨⟨hinv, hstep.frames h.frames (fun f hf => hf.later hevo) ?_ ?_ ?_ ?_, ?_⟩, hevo⟩
  · intro n q hallowed hshared
    rw [hshared]
    exact frameOk_serve verified (verified.issue _ n q h.inv hallowed).2.2
  · intro f p hf hseg
    obtain ⟨_, _, hwp⟩ := C.wp_segment hseg h.inv (hf _ (C.refl _) h.inv)
    exact frameOk_boundary hseg.boundary hwp
  · intro f dst q k hf hcall
    exact frameOk_serve verified (C.pre_stable hevo (hf.pre_of_call h.inv hcall))
  · intro f dst q k r hf hcall hreply
    refine (hf.later hevo).resume hcall fun a ha => ?_
    obtain ⟨g, hg, rfl, rfl, hret⟩ := hreply a ha
    exact C.post_stable hevo (hg.post_of_ret h.inv hret)
  · intro x hx
    rcases hstep.finished hx with hx | ⟨stack, hs, f, hf, r, hret, rfl⟩
    · exact C.post_stable hevo (h.finished x hx)
    · exact C.post_stable hevo ((h.frames stack hs f hf).post_of_ret h.inv hret)

/-- Every run keeps the contract. -/
theorem ConfigOk.reach (verified : Verified C apply serve allowed ok)
    {c c' : Config N σ A Q R T} (h : ConfigOk C apply ok c)
    (hreach : Reach apply serve allowed ok c c') :
    ConfigOk C apply ok c' ∧ C.evolves c.shared c'.shared := by
  induction hreach with
  | refl => exact ⟨h, C.refl _⟩
  | tail _ hstep ih =>
    obtain ⟨hok, hevo⟩ := ih
    obtain ⟨hok', hevo'⟩ := hok.step verified hstep
    exact ⟨hok', C.trans hevo hevo'⟩

theorem configOk_start {state : N → σ} (hinv : C.inv ⟨state, []⟩) :
    ConfigOk C apply ok (.start state : Config N σ A Q R T) :=
  ⟨hinv, by simp [Config.start], by simp [Config.start]⟩

end Soundness

section Sequential

variable {N σ A Q R T α : Type} [DecidableEq N]

/-- Crash instead of a state change that is not `ok`. -/
def watch (ok : A → σ → Prop) [∀ a s, Decidable (ok a s)] :
    Prog N σ A Q R T α → Prog N σ A Q R T α
  | .ret a => .ret a
  | .get k => .get fun s => watch ok (k s)
  | .act a k => .get fun s => if ok a s then .act a (watch ok k) else .crash
  | .now k => .now fun t => watch ok (k t)
  | .order l k => .order l fun l' => watch ok (k l')
  | .call dst q k => .call dst q fun r => watch ok (k r)
  | .crash => .crash

variable {apply : A → σ → σ} {serve : N → Q → Prog N σ A Q R T R} (allowed : N → Q → Prop)
variable {ok : N → Q → A → σ → Prop} [∀ n q a s, Decidable (ok n q a s)] {env : Env N T}

/-- A run of one request to its end is a run in the midst of other requests. -/
theorem reach_of_run (reliable : env.Reliable) (depth : Nat)
    (served : ∀ {n q w w' r} (before after : List (List (Frame N σ A Q R T)))
      (stack : List (Frame N σ A Q R T)) (issued : List (N × Q)) (finished : List (N × Q × R)),
      handle apply env (fun n q => watch (ok n q) (serve n q)) depth n q w = some (w', r) →
      Reach apply serve allowed ok
        ⟨⟨w.state, issued⟩, before ++ (⟨n, q, serve n q⟩ :: stack) :: after, finished⟩
        ⟨⟨w'.state, issued⟩, before ++ (⟨n, q, .ret r⟩ :: stack) :: after, finished⟩)
    (before after : List (List (Frame N σ A Q R T))) (stack : List (Frame N σ A Q R T))
    (issued : List (N × Q)) (finished : List (N × Q × R)) {n : N} {q : Q}
    (p : Prog N σ A Q R T R) {w w' : World N σ} {r : R}
    (hrun : run apply env (network env (handle apply env
      (fun n q => watch (ok n q) (serve n q)) depth)) n (watch (ok n q) p) w = some (w', r)) :
    ∃ p' s', Segment apply (ok n q) n p ⟨w.state, issued⟩ p' s' ∧
      Reach apply serve allowed ok
        ⟨s', before ++ (⟨n, q, p'⟩ :: stack) :: after, finished⟩
        ⟨⟨w'.state, issued⟩, before ++ (⟨n, q, .ret r⟩ :: stack) :: after, finished⟩ := by
  induction p generalizing w with
  | ret a =>
    cases hrun
    exact ⟨_, _, .ret _ _, .refl⟩
  | get k ih =>
    obtain ⟨p', s', hseg, hreach⟩ := ih _ hrun
    exact ⟨p', s', .get hseg, hreach⟩
  | act a k ih =>
    simp only [watch, run] at hrun
    split at hrun
    · rename_i hok
      obtain ⟨p', s', hseg, hreach⟩ := ih hrun
      exact ⟨p', s', .act hok hseg, hreach⟩
    · cases hrun
  | now k ih =>
    obtain ⟨p', s', hseg, hreach⟩ := ih _ hrun
    exact ⟨p', s', .now _ hseg, hreach⟩
  | order l k ih =>
    obtain ⟨p', s', hseg, hreach⟩ := ih _ hrun
    exact ⟨p', s', .order _ (env.perm _ _) hseg, hreach⟩
  | call dst q' k ih =>
    simp only [watch, run, network_reliable reliable] at hrun
    obtain ⟨⟨w₁, r₁⟩, hcall, hrun⟩ := Option.bind_eq_some_iff.mp hrun
    obtain ⟨⟨w₂, r₂⟩, hhandle, heq⟩ := Option.map_eq_some_iff.mp hcall
    cases heq
    obtain ⟨p', s', hseg, hreach⟩ := ih _ hrun
    refine ⟨_, _, .call _ _ _ _, ?_⟩
    refine .head (.invoke rfl) ?_
    refine (served before after (⟨n, q, .call dst q' k⟩ :: stack) issued finished hhandle).trans ?_
    refine .head (.reply (f := ⟨n, q, .call dst q' k⟩) (g := ⟨dst, q', .ret r₂⟩) rfl rfl) ?_
    exact .head (.segment hseg) hreach
  | crash => cases hrun

theorem reach_of_handle (reliable : env.Reliable) (depth : Nat) {n : N} {q : Q}
    {w w' : World N σ} {r : R} (before after : List (List (Frame N σ A Q R T)))
    (stack : List (Frame N σ A Q R T)) (issued : List (N × Q)) (finished : List (N × Q × R))
    (h : handle apply env (fun n q => watch (ok n q) (serve n q)) depth n q w = some (w', r)) :
    Reach apply serve allowed ok
      ⟨⟨w.state, issued⟩, before ++ (⟨n, q, serve n q⟩ :: stack) :: after, finished⟩
      ⟨⟨w'.state, issued⟩, before ++ (⟨n, q, .ret r⟩ :: stack) :: after, finished⟩ := by
  induction depth generalizing n q w w' r before after stack issued finished with
  | zero => cases h
  | succ depth ih =>
    obtain ⟨p', s', hseg, hreach⟩ := reach_of_run allowed reliable depth
      (fun before after stack issued finished h => ih before after stack issued finished h)
      before after stack issued finished (serve n q) h
    exact .head (.segment (f := ⟨n, q, serve n q⟩) hseg) hreach

variable (apply serve ok env) in
/-- Requests from outside, each served to its end before the next one. -/
def session (depth : Nat) : List (N × Q) → World N σ → Option (World N σ × List (N × Q × R))
  | [], w => some (w, [])
  | (n, q) :: requests, w => do
    let (w, r) ← handle apply env (fun n q => watch (ok n q) (serve n q)) depth n q w
    let (w, replies) ← session depth requests w
    return (w, replies ++ [(n, q, r)])

/-- A session is a run. -/
theorem reach_of_session (reliable : env.Reliable) (depth : Nat) (requests : List (N × Q))
    (hallowed : ∀ x ∈ requests, allowed x.1 x.2) {w w' : World N σ}
    {replies : List (N × Q × R)} (issued : List (N × Q)) (finished : List (N × Q × R))
    (h : session apply serve ok env depth requests w = some (w', replies)) :
    Reach apply serve allowed ok ⟨⟨w.state, issued⟩, [], finished⟩
      ⟨⟨w'.state, requests.reverse ++ issued⟩, [], replies ++ finished⟩ := by
  induction requests generalizing w replies issued finished with
  | nil =>
    cases h
    exact .refl
  | cons x requests ih =>
    obtain ⟨n, q⟩ := x
    obtain ⟨⟨w₁, r₁⟩, hhandle, h⟩ := Option.bind_eq_some_iff.mp h
    obtain ⟨⟨w₂, replies₂⟩, hsession, h⟩ := Option.bind_eq_some_iff.mp h
    cases h
    rw [List.forall_mem_cons] at hallowed
    refine .head (.issue n q hallowed.1) ?_
    refine (reach_of_handle allowed reliable depth [] [] [] _ _ hhandle).trans ?_
    refine .head (.finish [] (f := ⟨n, q, .ret r₁⟩) rfl) ?_
    have hreach := ih hallowed.2 ((n, q) :: issued) ((n, q, r₁) :: finished) hsession
    simpa using hreach

end Sequential

end RpcInterleaving
