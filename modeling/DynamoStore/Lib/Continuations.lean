import DynamoStore.Lib.RpcInterleaving

/-!
# What handlers do after their calls

A property of all calls in the code of a handler, with what the handler does after
each of them, holds wherever a run of the handler gets to.
-/

namespace Continuations

open RpcPrograms RpcInterleaving

section Programs

variable {N σ A Q R T α β : Type}

/-- All calls in the program, each with its continuation, are `good`. -/
def Follows (good : N → Q → (Option R → Prog N σ A Q R T α) → Prop) :
    Prog N σ A Q R T α → Prop
  | .ret _ => True
  | .get k => ∀ s, Follows good (k s)
  | .act _ k => Follows good k
  | .now k => ∀ t, Follows good (k t)
  | .order _ k => ∀ l, Follows good (k l)
  | .call dst q k => good dst q k ∧ ∀ r, Follows good (k r)
  | .crash => True

theorem follows_bind {good : N → Q → (Option R → Prog N σ A Q R T β) → Prop}
    {p : Prog N σ A Q R T α} {f : α → Prog N σ A Q R T β}
    (hp : Follows (fun dst q k => good dst q fun r => (k r).bind f) p)
    (hf : ∀ a, Follows good (f a)) : Follows good (p.bind f) := by
  induction p with
  | ret a => exact hf a
  | get k ih => exact fun s => ih s (hp s)
  | act a k ih => exact ih hp
  | now k ih => exact fun t => ih t (hp t)
  | order l k ih => exact fun l' => ih l' (hp l')
  | call dst q k ih => exact ⟨hp.1, fun r => ih r (hp.2 r)⟩
  | crash => trivial

variable {good good' : N → Q → (Option R → Prog N σ A Q R T α) → Prop}

theorem Follows.mono (h : ∀ dst q k, good dst q k → good' dst q k) {p : Prog N σ A Q R T α}
    (hp : Follows good p) : Follows good' p := by
  induction p with
  | ret a => trivial
  | get k ih => exact fun s => ih s (hp s)
  | act a k ih => exact ih hp
  | now k ih => exact fun t => ih t (hp t)
  | order l k ih => exact fun l' => ih l' (hp l')
  | call dst q k ih => exact ⟨h dst q k hp.1, fun r => ih r (hp.2 r)⟩
  | crash => trivial

theorem follows_of_all (h : ∀ dst q k, good dst q k) (p : Prog N σ A Q R T α) :
    Follows good p := by
  induction p with
  | ret a => trivial
  | get k ih => exact ih
  | act a k ih => exact ih
  | now k ih => exact ih
  | order l k ih => exact ih
  | call dst q k ih => exact ⟨h dst q k, ih⟩
  | crash => trivial

theorem Follows.segment [DecidableEq N] {apply : A → σ → σ} {ok : A → σ → Prop} {n : N}
    {p p' : Prog N σ A Q R T α} {s s' : Shared N σ Q}
    (segment : Segment apply ok n p s p' s') (hp : Follows good p) : Follows good p' := by
  induction segment with
  | ret a s => exact hp
  | call dst q k s => exact hp
  | get _ ih => exact ih (hp _)
  | act _ _ ih => exact ih hp
  | now t _ ih => exact ih (hp t)
  | order l' _ _ ih => exact ih (hp l')

end Programs

section Runs

variable {N σ A Q R T : Type} [DecidableEq N] {apply : A → σ → σ}
variable {serve : N → Q → Prog N σ A Q R T R} {allowed : N → Q → Prop}
variable {ok : N → Q → A → σ → Prop}
variable {good : N → Q → N → Q → (Option R → Prog N σ A Q R T R) → Prop}

omit [DecidableEq N] in
theorem Follows.resume {p : Prog N σ A Q R T R} {n dst : N} {q q' : Q}
    {k : Option R → Prog N σ A Q R T R} (hp : Follows (good n q) p)
    (hcall : p = .call dst q' k) (r : Option R) : Follows (good n q) (k r) := by
  subst hcall
  exact hp.2 r

/-- Whatever the code of all handlers does after its calls, every waiting frame does. -/
theorem follows_of_reach (served : ∀ n q, Follows (good n q) (serve n q))
    {c c' : Config N σ A Q R T} (hreach : Reach apply serve allowed ok c c')
    (idle : c.threads = []) :
    ∀ stack ∈ c'.threads, ∀ f ∈ stack, Follows (good f.node f.request) f.prog := by
  induction hreach with
  | refl => simp [idle]
  | tail _ hstep ih =>
    refine hstep.frames ih (fun _ hf => hf) (fun n q _ _ => served n q) ?_ ?_ ?_
    · exact fun f p hf hseg => Follows.segment hseg hf
    · exact fun _ dst q _ _ _ => served dst q
    · exact fun f dst q k r hf hcall _ => hf.resume hcall r

end Runs

end Continuations
