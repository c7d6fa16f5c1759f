import DynamoStore.Lib.RpcInterleaving

/-!
# Assertions at the calls of a handler

An invariant of one node may be broken for a moment and restored before the next
call. `Assures` asks for it only where a handler can be interrupted, at its calls
and at its end, and can also forbid that the handler crashes. What may happen to
the node during a call is part of the terms: everything that keeps the invariant,
for the interleaved runs, or less, for handlers that are not disturbed.
-/

namespace CallAssertions

open RpcPrograms RpcInterleaving

/-- The state changes that are considered, what holds at every call, what may happen to
the node during a call, and whether a handler may crash. -/
structure Terms (σ A : Type) where
  ok : A → σ → Prop
  boundary : σ → Prop
  meanwhile : σ → σ → Prop
  crashes : Prop

section Assertions

variable {N σ A Q R T α β : Type} (apply : A → σ → σ) (terms : Terms σ A)

def Assures : Prog N σ A Q R T α → (α → σ → Prop) → σ → Prop
  | .ret a, Φ, s => Φ a s
  | .get k, Φ, s => Assures (k s) Φ s
  | .act a k, Φ, s => terms.ok a s → Assures k Φ (apply a s)
  | .now k, Φ, s => ∀ t, Assures (k t) Φ s
  | .order l k, Φ, s => ∀ l', l'.Perm l → Assures (k l') Φ s
  | .call _ _ k, Φ, s =>
      terms.boundary s ∧ ∀ s' r, terms.meanwhile s s' → Assures (k r) Φ s'
  | .crash, _, _ => terms.crashes

/-- Started with `P`, the program ends with `Φ` and keeps the terms. -/
def Keeps (P : σ → Prop) (p : Prog N σ A Q R T α) (Φ : α → σ → Prop) : Prop :=
  ∀ s, P s → Assures apply terms p Φ s

variable {apply terms} {P : σ → Prop} {Φ Ψ : α → σ → Prop}

theorem assures_bind (p : Prog N σ A Q R T α) (f : α → Prog N σ A Q R T β) (Ψ : β → σ → Prop)
    (s : σ) : Assures apply terms (p.bind f) Ψ s ↔
      Assures apply terms p (fun a s' => Assures apply terms (f a) Ψ s') s := by
  induction p generalizing s with
  | ret a => rfl
  | get k ih => exact ih s s
  | act a k ih => simp only [Prog.bind, Assures, ih]
  | now k ih => simp only [Prog.bind, Assures, ih]
  | order l k ih => simp only [Prog.bind, Assures, ih]
  | call dst q k ih => simp only [Prog.bind, Assures, ih]
  | crash => rfl

theorem assures_mono (p : Prog N σ A Q R T α) (h : ∀ a s, Φ a s → Ψ a s) {s : σ}
    (hp : Assures apply terms p Φ s) : Assures apply terms p Ψ s := by
  induction p generalizing s with
  | ret a => exact h a s hp
  | get k ih => exact ih _ hp
  | act a k ih => exact fun hok => ih (hp hok)
  | now k ih => exact fun t => ih t (hp t)
  | order l k ih => exact fun l' hl => ih l' (hp l' hl)
  | call dst q k ih => exact ⟨hp.1, fun s' r hs => ih r (hp.2 s' r hs)⟩
  | crash => exact hp

theorem Keeps.bind {p : Prog N σ A Q R T α} {f : α → Prog N σ A Q R T β} {Ψ : β → σ → Prop}
    (hp : Keeps apply terms P p Φ) (hf : ∀ a, Keeps apply terms (Φ a) (f a) Ψ) :
    Keeps apply terms P (p.bind f) Ψ := by
  intro s hs
  rw [assures_bind]
  exact assures_mono p (fun a s' hΦ => hf a s' hΦ) (hp s hs)

theorem Keeps.weaken {p : Prog N σ A Q R T α} (hp : Keeps apply terms P p Φ)
    (h : ∀ a s, Φ a s → Ψ a s) : Keeps apply terms P p Ψ :=
  fun s hs => assures_mono p h (hp s hs)

theorem Keeps.strengthen {P' : σ → Prop} {p : Prog N σ A Q R T α}
    (hp : Keeps apply terms P p Φ) (h : ∀ s, P' s → P s) : Keeps apply terms P' p Φ :=
  fun s hs => hp s (h s hs)

theorem Keeps.ret {a : α} (h : ∀ s, P s → Φ a s) :
    Keeps apply terms P (.ret a : Prog N σ A Q R T α) Φ := h

theorem Keeps.read : Keeps apply terms P (Prog.read : Prog N σ A Q R T σ)
    fun node s => P s ∧ node = s :=
  fun _ hs => ⟨hs, rfl⟩

theorem Keeps.perform {a : A} {Φ : Unit → σ → Prop}
    (h : ∀ s, P s → terms.ok a s → Φ () (apply a s)) :
    Keeps apply terms P (Prog.perform a : Prog N σ A Q R T Unit) Φ := h

theorem Keeps.clock :
    Keeps apply terms P (Prog.clock : Prog N σ A Q R T T) fun _ s => P s :=
  fun _ hs _ => hs

theorem Keeps.iterate (l : List N) :
    Keeps apply terms P (Prog.iterate l : Prog N σ A Q R T (List N))
      fun l' s => P s ∧ l'.Perm l :=
  fun _ hs _ hl => ⟨hs, hl⟩

theorem Keeps.send {dst : N} {q : Q} {Φ : Option R → σ → Prop}
    (boundary : ∀ s, P s → terms.boundary s)
    (meanwhile : ∀ s s' r, P s → terms.meanwhile s s' → Φ r s') :
    Keeps apply terms P (Prog.send dst q : Prog N σ A Q R T (Option R)) Φ :=
  fun s hs => ⟨boundary s hs, fun s' r hss' => meanwhile s s' r hs hss'⟩

theorem Keeps.crash (h : ∀ s, P s → terms.crashes) :
    Keeps apply terms P (.crash : Prog N σ A Q R T α) Φ := h

end Assertions

section Undisturbed

variable {N σ A Q R T α : Type} (apply : A → σ → σ)

/-- The points that a handler passes on a node where only `meanwhile` happens during
its calls, whatever they are answered. -/
inductive Passes (ok : A → σ → Prop) (meanwhile : σ → σ → Prop) :
    Prog N σ A Q R T α → σ → Prog N σ A Q R T α → σ → Prop
  | here (p : Prog N σ A Q R T α) (s : σ) : Passes ok meanwhile p s p s
  | get {k : σ → Prog N σ A Q R T α} {s s' : σ} {p : Prog N σ A Q R T α} :
      Passes ok meanwhile (k s) s p s' → Passes ok meanwhile (.get k) s p s'
  | act {a : A} {k : Prog N σ A Q R T α} {s s' : σ} {p : Prog N σ A Q R T α} :
      ok a s → Passes ok meanwhile k (apply a s) p s' → Passes ok meanwhile (.act a k) s p s'
  | now (t : T) {k : T → Prog N σ A Q R T α} {s s' : σ} {p : Prog N σ A Q R T α} :
      Passes ok meanwhile (k t) s p s' → Passes ok meanwhile (.now k) s p s'
  | order {l : List N} (l' : List N) {k : List N → Prog N σ A Q R T α} {s s' : σ}
      {p : Prog N σ A Q R T α} : l'.Perm l → Passes ok meanwhile (k l') s p s' →
      Passes ok meanwhile (.order l k) s p s'
  | call {dst : N} {q : Q} (r : Option R) {k : Option R → Prog N σ A Q R T α} {s s₁ s' : σ}
      {p : Prog N σ A Q R T α} : meanwhile s s₁ → Passes ok meanwhile (k r) s₁ p s' →
      Passes ok meanwhile (.call dst q k) s p s'

variable {apply} {terms : Terms σ A} {Φ : α → σ → Prop}

theorem Assures.passes {p p' : Prog N σ A Q R T α} {s s' : σ}
    (passes : Passes apply terms.ok terms.meanwhile p s p' s')
    (h : Assures apply terms p Φ s) : Assures apply terms p' Φ s' := by
  induction passes with
  | here p s => exact h
  | get _ ih => exact ih h
  | act hok _ ih => exact ih (h hok)
  | now t _ ih => exact ih (h t)
  | order l' hl _ ih => exact ih (h l' hl)
  | call r hmeanwhile _ ih => exact ih (h.2 _ r hmeanwhile)

/-- A run that stops without a result, though all its calls return, has crashed. -/
theorem passes_crash_of_run [DecidableEq N] {env : Env N T} {rpc : Transport N σ Q R} {n : N}
    {ok : A → σ → Prop} {meanwhile : σ → σ → Prop} (all : ∀ a s, ok a s)
    (calm : ∀ s, meanwhile s s)
    (returns : ∀ dst q w, ∃ w' r, rpc dst q w = some (w', r) ∧ w'.state n = w.state n)
    {p : Prog N σ A Q R T α} {w : World N σ} (h : run apply env rpc n p w = none) :
    ∃ s, Passes apply ok meanwhile p (w.state n) .crash s := by
  induction p generalizing w with
  | ret a => cases h
  | get k ih =>
    obtain ⟨s, hs⟩ := ih _ h
    exact ⟨s, .get hs⟩
  | act a k ih =>
    obtain ⟨s, hs⟩ := ih h
    rw [w.modify_self] at hs
    exact ⟨s, .act (all a _) hs⟩
  | now k ih =>
    obtain ⟨s, hs⟩ := ih _ (w := w.next) h
    exact ⟨s, .now _ hs⟩
  | order l k ih =>
    obtain ⟨s, hs⟩ := ih _ (w := w.next) h
    exact ⟨s, .order _ (env.perm _ _) hs⟩
  | call dst q k ih =>
    obtain ⟨w', r, hcall, hsame⟩ := returns dst q w
    rw [run, hcall] at h
    obtain ⟨s, hs⟩ := ih r h
    rw [hsame] at hs
    exact ⟨s, .call r (calm _) hs⟩
  | crash => exact ⟨_, .here _ _⟩

end Undisturbed

section Interleaved

variable {N σ A Q R T α : Type} [DecidableEq N] {apply : A → σ → σ}
variable {serve : N → Q → Prog N σ A Q R T R} {allowed : N → Q → Prop}
variable {ok : N → Q → A → σ → Prop} {I : N → σ → Prop}

/-- During a call of an interleaved run anything may happen that keeps the invariant. -/
def interleaved (ok : A → σ → Prop) (I : σ → Prop) : Terms σ A where
  ok := ok
  boundary := I
  meanwhile := fun _ s' => I s'
  crashes := True

theorem Assures.segment {terms : Terms σ A} {n : N} {p p' : Prog N σ A Q R T α}
    {Φ : α → σ → Prop} {s s' : Shared N σ Q} (segment : Segment apply terms.ok n p s p' s')
    (h : Assures apply terms p Φ (s.state n)) :
    Assures apply terms p' Φ (s'.state n) ∧ ∀ m, m ≠ n → s'.state m = s.state m := by
  induction segment with
  | ret a s => exact ⟨h, fun _ _ => rfl⟩
  | call dst q k s => exact ⟨h, fun _ _ => rfl⟩
  | get _ ih => exact ih h
  | @act a k s s' p hok _ ih =>
    have hk := h hok
    rw [← s.modify_self n (apply a)] at hk
    obtain ⟨hp, hother⟩ := ih hk
    exact ⟨hp, fun m hm => (hother m hm).trans (s.modify_of_ne n _ hm)⟩
  | now t _ ih => exact ih (h t)
  | order l' hl _ ih => exact ih (h l' hl)

/-- Whenever the invariant holds on its node, the frame may go on. -/
def Ready (apply : A → σ → σ) (ok : N → Q → A → σ → Prop) (I : N → σ → Prop)
    (f : Frame N σ A Q R T) : Prop :=
  ∀ s, I f.node s →
    Assures apply (interleaved (ok f.node f.request) (I f.node)) f.prog (fun _ => I f.node) s

omit [DecidableEq N] in
theorem Ready.boundary {f : Frame N σ A Q R T} {s : σ}
    (hb : (∃ r, f.prog = .ret r) ∨ ∃ dst q k, f.prog = .call dst q k)
    (h : Assures apply (interleaved (ok f.node f.request) (I f.node)) f.prog
      (fun _ => I f.node) s) : I f.node s ∧ Ready apply ok I f := by
  rcases hb with ⟨r, hr⟩ | ⟨dst, q, k, hk⟩
  · rw [hr] at h
    exact ⟨h, fun s' hs' => by rw [hr]; exact hs'⟩
  · rw [hk] at h
    exact ⟨h.1, fun s' hs' => by rw [hk]; exact ⟨hs', fun s'' r hs'' => h.2 s'' r hs''⟩⟩

omit [DecidableEq N] in
theorem Ready.resume {f : Frame N σ A Q R T} {dst : N} {q : Q}
    {k : Option R → Prog N σ A Q R T R} (hf : f.prog = .call dst q k)
    (h : Ready apply ok I f) (r : Option R) : Ready apply ok I { f with prog := k r } := by
  intro s hs
  have hcall := h s hs
  rw [hf] at hcall
  exact hcall.2 s r hs

theorem Ready.segment {f : Frame N σ A Q R T} {p : Prog N σ A Q R T R} {s s' : Shared N σ Q}
    (h : Ready apply ok I f) (hinv : ∀ n, I n (s.state n))
    (hseg : Segment apply (ok f.node f.request) f.node f.prog s p s') :
    (∀ n, I n (s'.state n)) ∧ Ready apply ok I { f with prog := p } := by
  obtain ⟨hp, hother⟩ := Assures.segment hseg (h _ (hinv f.node))
  obtain ⟨hnode, hready⟩ := Ready.boundary (f := { f with prog := p }) hseg.boundary hp
  refine ⟨fun m => ?_, hready⟩
  by_cases hm : m = f.node
  · subst hm
    exact hnode
  · exact hother m hm ▸ hinv m

/-- If every handler restores the invariant before it calls or returns, every run keeps it
on every node. -/
theorem assured_of_reach
    (served : ∀ n q, Keeps apply (interleaved (ok n q) (I n)) (I n) (serve n q) fun _ => I n)
    {c c' : Config N σ A Q R T} (hreach : Reach apply serve allowed ok c c')
    (start : ∀ n, I n (c.shared.state n)) (idle : c.threads = []) :
    (∀ n, I n (c'.shared.state n)) ∧ ∀ stack ∈ c'.threads, ∀ f ∈ stack, Ready apply ok I f := by
  have fresh : ∀ n q, Ready apply ok I (⟨n, q, serve n q⟩ : Frame N σ A Q R T) := served
  induction hreach with
  | refl => exact ⟨start, by simp [idle]⟩
  | tail _ hstep ih =>
    obtain ⟨hinv, hframes⟩ := ih
    constructor
    · rcases hstep.shared with ⟨n, q, _, hshared⟩ | ⟨stack, hs, f, hf, p, hseg⟩ | hshared
      · rw [hshared]
        exact hinv
      · exact ((hframes stack hs f hf).segment hinv hseg).1
      · rw [hshared]
        exact hinv
    · refine hstep.frames hframes (fun _ hf => hf) (fun n q _ _ => fresh n q) ?_ ?_ ?_
      · exact fun f p hf hseg => (hf.segment hinv hseg).2
      · exact fun _ dst q _ _ _ => fresh dst q
      · exact fun f dst q k r hf hcall _ => hf.resume hcall r

end Interleaved

end CallAssertions
