import DynamoStore.Lib.RpcInterleaving

/-!
# What a handler sends and does

The log of a handler has its calls and its state changes in order. A call may be
answered in any way, and other handlers may change the node in any way before the
handler goes on; so the logs of a program cover all its interleaved executions.
-/

namespace CallLogs

open RpcPrograms RpcInterleaving

inductive Event (N A Q : Type) where
  | sent (dst : N) (q : Q)
  | done (a : A)

variable {N σ A Q R T α β : Type}

/-- A whole execution from one state of the node to another one, with its log. -/
inductive Logs (apply : A → σ → σ) :
    Prog N σ A Q R T α → σ → List (Event N A Q) → σ → α → Prop
  | ret (a : α) (s : σ) : Logs apply (.ret a) s [] s a
  | get {k : σ → Prog N σ A Q R T α} {s s' : σ} {log : List (Event N A Q)} {a : α} :
      Logs apply (k s) s log s' a → Logs apply (.get k) s log s' a
  | act {x : A} {k : Prog N σ A Q R T α} {s s' : σ} {log : List (Event N A Q)} {a : α} :
      Logs apply k (apply x s) log s' a → Logs apply (.act x k) s (.done x :: log) s' a
  | now (t : T) {k : T → Prog N σ A Q R T α} {s s' : σ} {log : List (Event N A Q)} {a : α} :
      Logs apply (k t) s log s' a → Logs apply (.now k) s log s' a
  | order {l : List N} (l' : List N) {k : List N → Prog N σ A Q R T α} {s s' : σ}
      {log : List (Event N A Q)} {a : α} :
      l'.Perm l → Logs apply (k l') s log s' a → Logs apply (.order l k) s log s' a
  | call {dst : N} {q : Q} (r : Option R) (s₁ : σ) {k : Option R → Prog N σ A Q R T α}
      {s s' : σ} {log : List (Event N A Q)} {a : α} :
      Logs apply (k r) s₁ log s' a → Logs apply (.call dst q k) s (.sent dst q :: log) s' a

variable {apply : A → σ → σ} {s s' s'' : σ} {log : List (Event N A Q)}

/-- The log of a sequence is the log of its first part and that of its second one. -/
theorem logs_bind {p : Prog N σ A Q R T α} {f : α → Prog N σ A Q R T β} {b : β}
    (h : Logs apply (p.bind f) s log s'' b) :
    ∃ log₁ log₂ s' a, log = log₁ ++ log₂ ∧ Logs apply p s log₁ s' a ∧
      Logs apply (f a) s' log₂ s'' b := by
  induction p generalizing s log with
  | ret a => exact ⟨[], log, s, a, rfl, .ret a s, h⟩
  | get k ih =>
    cases h with
    | get h =>
      obtain ⟨log₁, log₂, s', a, rfl, hp, hf⟩ := ih _ h
      exact ⟨log₁, log₂, s', a, rfl, .get hp, hf⟩
  | act x k ih =>
    cases h with
    | act h =>
      obtain ⟨log₁, log₂, s', a, rfl, hp, hf⟩ := ih h
      exact ⟨.done x :: log₁, log₂, s', a, rfl, .act hp, hf⟩
  | now k ih =>
    cases h with
    | now t h =>
      obtain ⟨log₁, log₂, s', a, rfl, hp, hf⟩ := ih t h
      exact ⟨log₁, log₂, s', a, rfl, .now t hp, hf⟩
  | order l k ih =>
    cases h with
    | order l' hl h =>
      obtain ⟨log₁, log₂, s', a, rfl, hp, hf⟩ := ih l' h
      exact ⟨log₁, log₂, s', a, rfl, .order l' hl hp, hf⟩
  | call dst q k ih =>
    cases h with
    | call r s₁ h =>
      obtain ⟨log₁, log₂, s', a, rfl, hp, hf⟩ := ih r h
      exact ⟨.sent dst q :: log₁, log₂, s', a, rfl, .call r s₁ hp, hf⟩
  | crash => cases h

@[simp] theorem logs_ret {a b : α} :
    Logs apply (.ret a : Prog N σ A Q R T α) s log s' b ↔ log = [] ∧ s' = s ∧ b = a :=
  ⟨fun h => by cases h; exact ⟨rfl, rfl, rfl⟩, by rintro ⟨rfl, rfl, rfl⟩; exact .ret _ _⟩

@[simp] theorem logs_read {s'' : σ} :
    Logs apply (Prog.read : Prog N σ A Q R T σ) s log s' s'' ↔ log = [] ∧ s' = s ∧ s'' = s :=
  ⟨fun h => by cases h with | get h => exact logs_ret.mp h,
    fun h => .get (logs_ret.mpr h)⟩

@[simp] theorem logs_perform {x : A} {u : Unit} :
    Logs apply (Prog.perform x : Prog N σ A Q R T Unit) s log s' u ↔
      log = [.done x] ∧ s' = apply x s := by
  constructor
  · intro h
    cases h with
    | act h =>
      obtain ⟨rfl, rfl, _⟩ := logs_ret.mp h
      exact ⟨rfl, rfl⟩
  · rintro ⟨rfl, rfl⟩
    exact .act (.ret _ _)

@[simp] theorem logs_clock {t : T} :
    Logs apply (Prog.clock : Prog N σ A Q R T T) s log s' t ↔ log = [] ∧ s' = s :=
  ⟨fun h => by cases h with | now _ h => exact ⟨(logs_ret.mp h).1, (logs_ret.mp h).2.1⟩,
    fun h => .now t (logs_ret.mpr ⟨h.1, h.2, rfl⟩)⟩

@[simp] theorem logs_iterate {l l' : List N} :
    Logs apply (Prog.iterate l : Prog N σ A Q R T (List N)) s log s' l' ↔
      log = [] ∧ s' = s ∧ l'.Perm l := by
  constructor
  · intro h
    cases h with
    | order l₁ hl h =>
      obtain ⟨rfl, rfl, rfl⟩ := logs_ret.mp h
      exact ⟨rfl, rfl, hl⟩
  · rintro ⟨rfl, rfl, hl⟩
    exact .order l' hl (.ret _ _)

@[simp] theorem logs_send {dst : N} {q : Q} {r : Option R} :
    Logs apply (Prog.send dst q : Prog N σ A Q R T (Option R)) s log s' r ↔
      log = [.sent dst q] := by
  constructor
  · intro h
    cases h with
    | call r₁ s₁ h =>
      obtain ⟨rfl, _, _⟩ := logs_ret.mp h
      rfl
  · rintro rfl
    exact .call r s' (.ret _ _)

@[simp] theorem logs_crash {a : α} :
    ¬ Logs apply (.crash : Prog N σ A Q R T α) s log s' a := fun h => by cases h

/-- Every sequential run has a log, however the calls are transported. -/
theorem logs_of_run [DecidableEq N] {env : Env N T} {rpc : Transport N σ Q R} {n : N}
    {p : Prog N σ A Q R T α} {w w' : World N σ} {a : α}
    (h : run apply env rpc n p w = some (w', a)) :
    ∃ log, Logs apply p (w.state n) log (w'.state n) a := by
  induction p generalizing w with
  | ret b =>
    cases h
    exact ⟨[], .ret _ _⟩
  | get k ih =>
    obtain ⟨log, hlog⟩ := ih _ h
    exact ⟨log, .get hlog⟩
  | act x k ih =>
    obtain ⟨log, hlog⟩ := ih h
    rw [w.modify_self] at hlog
    exact ⟨.done x :: log, .act hlog⟩
  | now k ih =>
    obtain ⟨log, hlog⟩ := ih _ (w := w.next) h
    exact ⟨log, .now _ hlog⟩
  | order l k ih =>
    obtain ⟨log, hlog⟩ := ih _ (w := w.next) h
    exact ⟨log, .order _ (env.perm _ _) hlog⟩
  | call dst q k ih =>
    obtain ⟨⟨w₁, r⟩, hcall, hrun⟩ := Option.bind_eq_some_iff.mp h
    obtain ⟨log, hlog⟩ := ih r hrun
    exact ⟨.sent dst q :: log, .call r (w₁.state n) hlog⟩
  | crash => cases h

section Runs

variable [DecidableEq N] {serve : N → Q → Prog N σ A Q R T R}

/-- What a handler logs after a segment, it logs after its start, behind something else. -/
theorem Logs.before_segment {ok : A → σ → Prop} {n : N} {p p' : Prog N σ A Q R T α}
    {sh sh' : Shared N σ Q} (segment : Segment apply ok n p sh p' sh') {a : α}
    (h : Logs apply p' (sh'.state n) log s' a) :
    ∃ log', Logs apply p (sh.state n) log' s' a := by
  induction segment with
  | ret b sh => exact ⟨log, h⟩
  | call dst q k sh => exact ⟨log, h⟩
  | get _ ih =>
    obtain ⟨log', hlog⟩ := ih h
    exact ⟨log', .get hlog⟩
  | @act x k sh sh' p _ _ ih =>
    obtain ⟨log', hlog⟩ := ih h
    rw [sh.modify_self] at hlog
    exact ⟨.done x :: log', .act hlog⟩
  | now t _ ih =>
    obtain ⟨log', hlog⟩ := ih h
    exact ⟨log', .now t hlog⟩
  | order l' hl _ ih =>
    obtain ⟨log', hlog⟩ := ih h
    exact ⟨log', .order l' hl hlog⟩

/-- The rest of a handler, from some state, completes an execution from state `s`. -/
def Completes (apply : A → σ → σ) (p : Prog N σ A Q R T α) (s : σ) (rest : Prog N σ A Q R T α)
    (s₁ : σ) : Prop :=
  ∀ log s' a, Logs apply rest s₁ log s' a → ∃ log', Logs apply p s log' s' a

/-- A frame has not run yet; or it stands at a boundary, where it came from some state of
its node; or it goes on after a call, from any state. -/
def Executing (apply : A → σ → σ) (serve : N → Q → Prog N σ A Q R T R) (was : N → σ → Prop)
    (f : Frame N σ A Q R T) : Prop :=
  f.prog = serve f.node f.request ∨ ∃ s, was f.node s ∧
    (((∃ a, f.prog = .ret a) ∨ ∃ dst q k, f.prog = .call dst q k) ∧
        (∃ s₁, Completes apply (serve f.node f.request) s f.prog s₁) ∨
      ∀ s₁, Completes apply (serve f.node f.request) s f.prog s₁)

variable {allowed : N → Q → Prop} {ok : N → Q → A → σ → Prop} {was was' : N → σ → Prop}
variable {c c' : Config N σ A Q R T}

omit [DecidableEq N] in
theorem Executing.mono (h : ∀ n s, was n s → was' n s) {f : Frame N σ A Q R T}
    (hf : Executing apply serve was f) : Executing apply serve was' f := by
  rcases hf with hstart | ⟨s, hs, hrest⟩
  · exact Or.inl hstart
  · exact Or.inr ⟨s, h _ _ hs, hrest⟩

theorem Executing.segment {f : Frame N σ A Q R T} {p : Prog N σ A Q R T R}
    {sh sh' : Shared N σ Q} (hf : Executing apply serve was f)
    (hseg : Segment apply (ok f.node f.request) f.node f.prog sh p sh')
    (now : was f.node (sh.state f.node)) : Executing apply serve was { f with prog := p } := by
  rcases hf with hstart | ⟨s, hs, ⟨hstands, s₁, hrest⟩ | hrest⟩
  · refine Or.inr ⟨_, now, Or.inl ⟨hseg.boundary, sh'.state f.node, fun log s' a h => ?_⟩⟩
    rw [hstart] at hseg
    exact h.before_segment hseg
  · -- a segment from a boundary is empty
    have same : p = f.prog := by
      generalize f.prog = p₀ at hseg hstands
      rcases hstands with ⟨a, rfl⟩ | ⟨dst, q, k, rfl⟩
      · cases hseg
        rfl
      · cases hseg
        rfl
    exact Or.inr ⟨s, hs, Or.inl ⟨same ▸ hstands, s₁, same ▸ hrest⟩⟩
  · refine Or.inr ⟨s, hs, Or.inl ⟨hseg.boundary, sh'.state f.node, fun log s' a h => ?_⟩⟩
    obtain ⟨log', hlog⟩ := h.before_segment hseg
    exact hrest _ _ _ _ hlog

omit [DecidableEq N] in
theorem Executing.resume {f : Frame N σ A Q R T} {dst : N} {q : Q}
    {k : Option R → Prog N σ A Q R T R} (hf : Executing apply serve was f)
    (hcall : f.prog = .call dst q k) (r : Option R) {s₀ : σ} (now : was f.node s₀) :
    Executing apply serve was { f with prog := k r } := by
  have continued : ∀ {s s₁}, Completes apply (serve f.node f.request) s f.prog s₁ →
      ∀ s₂, Completes apply (serve f.node f.request) s (k r) s₂ := by
    intro s s₁ hrest s₂ log s' a h
    rw [hcall] at hrest
    exact hrest _ _ _ (.call r s₂ h)
  rcases hf with hstart | ⟨s, hs, ⟨_, s₁, hrest⟩ | hrest⟩
  · have started : Completes apply (serve f.node f.request) s₀ f.prog s₀ :=
      fun log s' a h => ⟨log, hstart ▸ h⟩
    exact Or.inr ⟨s₀, now, Or.inr (continued started)⟩
  · exact Or.inr ⟨s, hs, Or.inr (continued hrest)⟩
  · exact Or.inr ⟨s, hs, Or.inr (continued (hrest s₀))⟩

/-- A state that the node has had in the run. -/
def Passed (apply : A → σ → σ) (serve : N → Q → Prog N σ A Q R T R) (allowed : N → Q → Prop)
    (ok : N → Q → A → σ → Prop) (c c' : Config N σ A Q R T) (n : N) (s : σ) : Prop :=
  ∃ c₁, Reach apply serve allowed ok c c₁ ∧ Reach apply serve allowed ok c₁ c' ∧
    s = c₁.shared.state n

theorem executing_of_reach (hreach : Reach apply serve allowed ok c c') (idle : c.threads = []) :
    ∀ stack ∈ c'.threads, ∀ f ∈ stack,
      Executing apply serve (Passed apply serve allowed ok c c') f := by
  induction hreach with
  | refl => simp [idle]
  | @tail y z hreach hstep ih =>
    have later : ∀ n s, Passed apply serve allowed ok c y n s →
        Passed apply serve allowed ok c z n s :=
      fun n s ⟨c₁, before, after, hs⟩ => ⟨c₁, before, after.tail hstep, hs⟩
    have now : ∀ n, Passed apply serve allowed ok c z n (y.shared.state n) :=
      fun n => ⟨y, hreach, .single hstep, rfl⟩
    refine hstep.frames ih (fun f hf => hf.mono later) (fun n q _ _ => Or.inl rfl) ?_ ?_ ?_
    · exact fun f p hf hseg => (hf.mono later).segment hseg (now f.node)
    · exact fun _ dst q _ _ _ => Or.inl rfl
    · exact fun f dst q k r hf hcall _ => (hf.mono later).resume hcall r (now f.node)

/-- A request that an interleaved run has answered was executed with some log, from a state
that its node had in the run. -/
theorem logs_of_reach (hreach : Reach apply serve allowed ok c c') (idle : c.threads = [])
    (fresh : c.finished = []) {n : N} {q : Q} {r : R} (answered : (n, q, r) ∈ c'.finished) :
    ∃ s log s', Passed apply serve allowed ok c c' n s ∧ Logs apply (serve n q) s log s' r := by
  induction hreach with
  | refl => simp [fresh] at answered
  | @tail y z hreach hstep ih =>
    rcases hstep.finished answered with hold | ⟨stack, hstack, f, hf, r', hret, hx⟩
    · obtain ⟨s, log, s', ⟨c₁, before, after, hs⟩, hlog⟩ := ih hold
      exact ⟨s, log, s', ⟨c₁, before, after.tail hstep, hs⟩, hlog⟩
    · obtain ⟨rfl, rfl, rfl⟩ : n = f.node ∧ q = f.request ∧ r = r' := by simpa using hx
      have returns : ∀ s, Logs apply f.prog s [] s r := fun s => by rw [hret]; exact .ret r s
      rcases executing_of_reach hreach idle stack hstack f hf with
        hstart | ⟨s, ⟨c₁, before, after, hs⟩, ⟨_, s₁, hrest⟩ | hrest⟩
      · refine ⟨_, [], y.shared.state f.node, ⟨y, hreach, .single hstep, rfl⟩, ?_⟩
        rw [← hstart]
        exact returns _
      · obtain ⟨log, hlog⟩ := hrest _ _ _ (returns s₁)
        exact ⟨s, log, s₁, ⟨c₁, before, after.tail hstep, hs⟩, hlog⟩
      · obtain ⟨log, hlog⟩ := hrest s _ _ _ (returns s)
        exact ⟨s, log, s, ⟨c₁, before, after.tail hstep, hs⟩, hlog⟩

end Runs

end CallLogs
