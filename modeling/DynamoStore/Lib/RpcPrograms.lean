import Mathlib.Data.List.Perm.Basic
import Mathlib.Logic.Function.Basic

/-!
# Request handlers as programs, and their sequential runs

A handler reads and changes the state of the node it runs on, asks its
environment for the time and for the iteration order of an unordered container,
and calls other nodes. Nothing here depends on what the nodes store or serve:
node names `N`, node states `σ`, state changes `A`, requests `Q`, replies `R` and
time stamps `T` are parameters.

A sequential run executes one request to its end. Every question the
environment answers is numbered by the tick of the world, so one environment
fixes one run, and a statement about all environments is about all runs.
-/

namespace RpcPrograms

/-- The code of a handler. A call continues with the reply, or with `none` when
the RPC status is not ok. -/
inductive Prog (N σ A Q R T : Type) (α : Type) where
  | ret (a : α)
  | get (k : σ → Prog N σ A Q R T α)
  | act (a : A) (k : Prog N σ A Q R T α)
  | now (k : T → Prog N σ A Q R T α)
  | order (l : List N) (k : List N → Prog N σ A Q R T α)
  | call (dst : N) (q : Q) (k : Option R → Prog N σ A Q R T α)
  | crash

namespace Prog

variable {N σ A Q R T α β γ : Type}

def bind : Prog N σ A Q R T α → (α → Prog N σ A Q R T β) → Prog N σ A Q R T β
  | ret a, f => f a
  | get k, f => get fun s => (k s).bind f
  | act a k, f => act a (k.bind f)
  | now k, f => now fun t => (k t).bind f
  | order l k, f => order l fun l' => (k l').bind f
  | call dst q k, f => call dst q fun r => (k r).bind f
  | crash, _ => crash

instance : Monad (Prog N σ A Q R T) where
  pure := ret
  bind := bind

/-- The current state of the node the handler runs on. -/
def read : Prog N σ A Q R T σ := get ret

def perform (a : A) : Prog N σ A Q R T Unit := act a (ret ())

def clock : Prog N σ A Q R T T := now ret

/-- The elements of an unordered container in the order an iteration meets them. -/
def iterate (l : List N) : Prog N σ A Q R T (List N) := order l ret

def send (dst : N) (q : Q) : Prog N σ A Q R T (Option R) := call dst q ret

theorem pure_eq (a : α) : (pure a : Prog N σ A Q R T α) = ret a := rfl

theorem bind_eq (p : Prog N σ A Q R T α) (f : α → Prog N σ A Q R T β) :
    p >>= f = p.bind f := rfl

theorem bind_assoc (p : Prog N σ A Q R T α) (f : α → Prog N σ A Q R T β)
    (g : β → Prog N σ A Q R T γ) :
    (p.bind f).bind g = p.bind fun a => (f a).bind g := by
  induction p with
  | ret a => rfl
  | get k ih => simp only [bind, ih]
  | act a k ih => simp only [bind, ih]
  | now k ih => simp only [bind, ih]
  | order l k ih => simp only [bind, ih]
  | call dst q k ih => simp only [bind, ih]
  | crash => rfl

end Prog

/-- What happens to one RPC: it is answered, it never arrives, or it is handled
and the reply is lost. -/
inductive Fate where
  | delivered
  | requestLost
  | replyLost
  deriving DecidableEq

structure Env (N T : Type) where
  now : Nat → T
  order : Nat → List N → List N
  perm : ∀ i l, (order i l).Perm l
  fate : Nat → N → Fate

/-- Every RPC is delivered and answered. -/
def Env.Reliable {N T : Type} (env : Env N T) : Prop :=
  ∀ i dst, env.fate i dst = .delivered

structure World (N σ : Type) where
  state : N → σ
  tick : Nat

namespace World

variable {N σ : Type} [DecidableEq N]

def next (w : World N σ) : World N σ := { w with tick := w.tick + 1 }

def modify (w : World N σ) (n : N) (f : σ → σ) : World N σ :=
  { w with state := Function.update w.state n (f (w.state n)) }

omit [DecidableEq N] in
@[simp] theorem next_state (w : World N σ) : w.next.state = w.state := rfl

theorem modify_state (w : World N σ) (n : N) (f : σ → σ) :
    (w.modify n f).state = Function.update w.state n (f (w.state n)) := rfl

@[simp] theorem modify_self (w : World N σ) (n : N) (f : σ → σ) :
    (w.modify n f).state n = f (w.state n) := by
  simp [modify]

@[simp] theorem modify_of_ne (w : World N σ) {n m : N} (f : σ → σ) (h : m ≠ n) :
    (w.modify n f).state m = w.state m := by
  simp [modify, h]

end World

section Run

variable {N σ A Q R T α β : Type} [DecidableEq N]
variable (apply : A → σ → σ) (env : Env N T)

/-- How a node reaches another one: the world after the call, with the reply. -/
abbrev Transport (N σ Q R : Type) := N → Q → World N σ → Option (World N σ × Option R)

/-- Run a program on node `n`. A crashed handler gives `none`. -/
def run (rpc : Transport N σ Q R) (n : N) :
    Prog N σ A Q R T α → World N σ → Option (World N σ × α)
  | .ret a, w => some (w, a)
  | .get k, w => run rpc n (k (w.state n)) w
  | .act a k, w => run rpc n k (w.modify n (apply a))
  | .now k, w => run rpc n (k (env.now w.tick)) w.next
  | .order l k, w => run rpc n (k (env.order w.tick l)) w.next
  | .call dst q k, w => (rpc dst q w).bind fun x => run rpc n (k x.2) x.1
  | .crash, _ => none

/-- The network between two handlers, as the environment decides it. -/
def network (handler : N → Q → World N σ → Option (World N σ × R)) : Transport N σ Q R :=
  fun dst q w => match env.fate w.tick dst with
    | .delivered => (handler dst q w.next).map fun x => (x.1, some x.2)
    | .requestLost => some (w.next, none)
    | .replyLost => (handler dst q w.next).map fun x => (x.1, none)

/-- Serve a request on a node, with calls nested at most `depth` deep. -/
def handle (serve : N → Q → Prog N σ A Q R T R) :
    Nat → N → Q → World N σ → Option (World N σ × R)
  | 0, _, _, _ => none
  | depth + 1, n, q, w =>
      run apply env (network env (handle serve depth)) n (serve n q) w

variable {apply env} {rpc : Transport N σ Q R} {n : N}

theorem run_bind (p : Prog N σ A Q R T α) (f : α → Prog N σ A Q R T β) (w : World N σ) :
    run apply env rpc n (p.bind f) w =
      (run apply env rpc n p w).bind fun x => run apply env rpc n (f x.2) x.1 := by
  induction p generalizing w with
  | ret a => rfl
  | get k ih => exact ih _ w
  | act a k ih => exact ih _
  | now k ih => exact ih _ _
  | order l k ih => exact ih _ _
  | call dst q k ih =>
    simp only [Prog.bind, run, Option.bind_assoc]
    congr 1
    funext x
    exact ih x.2 x.1
  | crash => rfl

@[simp] theorem run_ret (a : α) (w : World N σ) :
    run apply env rpc n (.ret a : Prog N σ A Q R T α) w = some (w, a) := rfl

@[simp] theorem run_read (w : World N σ) :
    run apply env rpc n (Prog.read : Prog N σ A Q R T σ) w = some (w, w.state n) := rfl

@[simp] theorem run_perform (a : A) (w : World N σ) :
    run apply env rpc n (Prog.perform a : Prog N σ A Q R T Unit) w =
      some (w.modify n (apply a), ()) := rfl

@[simp] theorem run_clock (w : World N σ) :
    run apply env rpc n (Prog.clock : Prog N σ A Q R T T) w =
      some (w.next, env.now w.tick) := rfl

@[simp] theorem run_iterate (l : List N) (w : World N σ) :
    run apply env rpc n (Prog.iterate l : Prog N σ A Q R T (List N)) w =
      some (w.next, env.order w.tick l) := rfl

theorem run_send (dst : N) (q : Q) (w : World N σ) :
    run apply env rpc n (Prog.send dst q : Prog N σ A Q R T (Option R)) w = rpc dst q w := by
  simp only [Prog.send, run]
  cases rpc dst q w <;> rfl

omit [DecidableEq N] in
/-- On a reliable network every call returns what the handler answers. -/
theorem network_reliable (reliable : env.Reliable)
    (handler : N → Q → World N σ → Option (World N σ × R)) (dst : N) (q : Q) (w : World N σ) :
    network env handler dst q w = (handler dst q w.next).map fun x => (x.1, some x.2) := by
  simp [network, reliable w.tick dst]

end Run

section Outcomes

variable {N σ A Q R T α β : Type}

/-- What a program can do to the node it runs on, whatever the time is, whatever
order containers are iterated in, and whatever the calls are answered. -/
inductive Outcome (apply : A → σ → σ) : Prog N σ A Q R T α → σ → σ → α → Prop
  | ret (a : α) (s : σ) : Outcome apply (.ret a) s s a
  | get {k : σ → Prog N σ A Q R T α} {s s' : σ} {a : α} :
      Outcome apply (k s) s s' a → Outcome apply (.get k) s s' a
  | act {x : A} {k : Prog N σ A Q R T α} {s s' : σ} {a : α} :
      Outcome apply k (apply x s) s' a → Outcome apply (.act x k) s s' a
  | now (t : T) {k : T → Prog N σ A Q R T α} {s s' : σ} {a : α} :
      Outcome apply (k t) s s' a → Outcome apply (.now k) s s' a
  | order {l : List N} (l' : List N) {k : List N → Prog N σ A Q R T α} {s s' : σ} {a : α} :
      l'.Perm l → Outcome apply (k l') s s' a → Outcome apply (.order l k) s s' a
  | call {dst : N} {q : Q} (r : Option R) {k : Option R → Prog N σ A Q R T α} {s s' : σ}
      {a : α} : Outcome apply (k r) s s' a → Outcome apply (.call dst q k) s s' a

variable {apply : A → σ → σ}

theorem outcome_bind {p : Prog N σ A Q R T α} {f : α → Prog N σ A Q R T β} {s s'' : σ} {b : β} :
    Outcome apply (p.bind f) s s'' b ↔
      ∃ s' a, Outcome apply p s s' a ∧ Outcome apply (f a) s' s'' b := by
  constructor
  · intro h
    induction p generalizing s with
    | ret a => exact ⟨s, a, .ret a s, h⟩
    | get k ih =>
      cases h with
      | get h =>
        obtain ⟨s', a, hp, hf⟩ := ih _ h
        exact ⟨s', a, .get hp, hf⟩
    | act x k ih =>
      cases h with
      | act h =>
        obtain ⟨s', a, hp, hf⟩ := ih h
        exact ⟨s', a, .act hp, hf⟩
    | now k ih =>
      cases h with
      | now t h =>
        obtain ⟨s', a, hp, hf⟩ := ih t h
        exact ⟨s', a, .now t hp, hf⟩
    | order l k ih =>
      cases h with
      | order l' hl h =>
        obtain ⟨s', a, hp, hf⟩ := ih l' h
        exact ⟨s', a, .order l' hl hp, hf⟩
    | call dst q k ih =>
      cases h with
      | call r h =>
        obtain ⟨s', a, hp, hf⟩ := ih r h
        exact ⟨s', a, .call r hp, hf⟩
    | crash => cases h
  · rintro ⟨s', a, hp, hf⟩
    induction hp with
    | ret a s => exact hf
    | get _ ih => exact .get (ih hf)
    | act _ ih => exact .act (ih hf)
    | now t _ ih => exact .now t (ih hf)
    | order l' hl _ ih => exact .order l' hl (ih hf)
    | call r _ ih => exact .call r (ih hf)

@[simp] theorem outcome_ret {a b : α} {s s' : σ} :
    Outcome apply (.ret a : Prog N σ A Q R T α) s s' b ↔ s' = s ∧ b = a :=
  ⟨fun h => by cases h; exact ⟨rfl, rfl⟩, by rintro ⟨rfl, rfl⟩; exact .ret _ _⟩

@[simp] theorem outcome_read {s s' s'' : σ} :
    Outcome apply (Prog.read : Prog N σ A Q R T σ) s s' s'' ↔ s' = s ∧ s'' = s :=
  ⟨fun h => by cases h with | get h => exact outcome_ret.mp h,
    fun h => .get (outcome_ret.mpr h)⟩

@[simp] theorem outcome_perform {x : A} {s s' : σ} {u : Unit} :
    Outcome apply (Prog.perform x : Prog N σ A Q R T Unit) s s' u ↔ s' = apply x s :=
  ⟨fun h => by cases h with | act h => exact (outcome_ret.mp h).1,
    fun h => .act (outcome_ret.mpr ⟨h, rfl⟩)⟩

@[simp] theorem outcome_clock {s s' : σ} {t : T} :
    Outcome apply (Prog.clock : Prog N σ A Q R T T) s s' t ↔ s' = s :=
  ⟨fun h => by cases h with | now _ h => exact (outcome_ret.mp h).1,
    fun h => .now t (outcome_ret.mpr ⟨h, rfl⟩)⟩

@[simp] theorem outcome_send {dst : N} {q : Q} {s s' : σ} {r : Option R} :
    Outcome apply (Prog.send dst q : Prog N σ A Q R T (Option R)) s s' r ↔ s' = s :=
  ⟨fun h => by cases h with | call _ h => exact (outcome_ret.mp h).1,
    fun h => .call r (outcome_ret.mpr ⟨h, rfl⟩)⟩

@[simp] theorem outcome_crash {s s' : σ} {a : α} :
    ¬ Outcome apply (.crash : Prog N σ A Q R T α) s s' a := fun h => by cases h

/-- A run whose calls leave the node alone has one of these outcomes. -/
theorem outcome_of_run [DecidableEq N] {env : Env N T} {rpc : Transport N σ Q R} {n : N}
    (leaves : ∀ dst q w w' r, rpc dst q w = some (w', r) → w'.state n = w.state n)
    {p : Prog N σ A Q R T α} {w w' : World N σ} {a : α}
    (h : run apply env rpc n p w = some (w', a)) :
    Outcome apply p (w.state n) (w'.state n) a := by
  induction p generalizing w with
  | ret b =>
    cases h
    exact .ret _ _
  | get k ih => exact .get (ih _ h)
  | act x k ih =>
    have hk := ih h
    rw [w.modify_self] at hk
    exact .act hk
  | now k ih => exact .now _ (ih _ (w := w.next) h)
  | order l k ih => exact .order _ (env.perm _ _) (ih _ (w := w.next) h)
  | call dst q k ih =>
    obtain ⟨⟨w₁, r⟩, hcall, hrun⟩ := Option.bind_eq_some_iff.mp h
    have hk := ih r hrun
    rw [leaves dst q w w₁ r hcall] at hk
    exact .call r hk
  | crash => cases h

end Outcomes

end RpcPrograms
