import DynamoStore.Lib.GuardedCalls

/-!
# Interleaved runs by a schedule

A schedule says which thread goes next and what it does. Playing it computes the
configuration that the run reaches, so a run of an interleaving can be evaluated.
During a segment the clock stands still and iterations are in order.
-/

namespace RpcSchedules

open RpcPrograms RpcInterleaving GuardedCalls

inductive Turn (T : Type) where
  | segment (t : T)
  | invoke
  | reply
  | abandon
  | finish

inductive Move (N Q T : Type) where
  | issue (n : N) (q : Q)
  | turn (thread : Nat) (turn : Turn T)

section Play

variable {N σ A Q R T α : Type} [DecidableEq N] [DecidableEq Q]
variable (apply : A → σ → σ) (serve : N → Q → Prog N σ A Q R T R)
variable (allowed : N → Q → Prop) [∀ n q, Decidable (allowed n q)]
variable (ok : N → Q → A → σ → Prop) [∀ n q a s, Decidable (ok n q a s)]
variable (guard : N → Q → N → Q → σ → Prop) [∀ n q dst q' s, Decidable (guard n q dst q' s)]

/-- Run a program on node `n` up to its next call or its return. -/
def advance (ok : A → σ → Prop) [∀ a s, Decidable (ok a s)] (n : N) (t : T) :
    Prog N σ A Q R T α → Shared N σ Q → Option (Prog N σ A Q R T α × Shared N σ Q)
  | .ret a, s => some (.ret a, s)
  | .get k, s => advance ok n t (k (s.state n)) s
  | .act a k, s =>
    if ok a (s.state n) then advance ok n t k (s.modify n (apply a)) else none
  | .now k, s => advance ok n t (k t) s
  | .order l k, s => advance ok n t (k l) s
  | .call dst q k, s => some (.call dst q k, s)
  | .crash, _ => none

/-- The call that the frame has come to meets the guard. -/
def Met (s : Shared N σ Q) (f : Frame N σ A Q R T) : Prop :=
  ∀ dst q k, f.prog = .call dst q k → guard f.node f.request dst q (s.state f.node)

def met (s : Shared N σ Q) (f : Frame N σ A Q R T) : Bool :=
  match f.prog with
  | .call dst q _ => guard f.node f.request dst q (s.state f.node)
  | _ => true

/-- What a turn makes of the node states and the thread, and the request it finishes. -/
def takeTurn : Turn T → Shared N σ Q → List (Frame N σ A Q R T) →
    Option (Shared N σ Q × List (List (Frame N σ A Q R T)) × List (N × Q × R))
  | .segment t, s, f :: stack => do
    let (p, s') ← advance apply (ok f.node f.request) f.node t f.prog s
    if met guard s' { f with prog := p } then some (s', [{ f with prog := p } :: stack], [])
    else none
  | .invoke, s, f :: stack =>
    match f.prog with
    | .call dst q _ =>
      if met guard s ⟨dst, q, serve dst q⟩ then
        some (s, [⟨dst, q, serve dst q⟩ :: f :: stack], [])
      else none
    | _ => none
  | .reply, s, g :: f :: stack =>
    match g.prog, f.prog with
    | .ret r, .call dst q k =>
      if dst = g.node ∧ q = g.request ∧ met guard s { f with prog := k (some r) } then
        some (s, [{ f with prog := k (some r) } :: stack], [])
      else none
    | _, _ => none
  | .abandon, s, f :: stack =>
    match f.prog with
    | .call dst q k =>
      if met guard s ⟨dst, q, serve dst q⟩ ∧ met guard s { f with prog := k none } then
        some (s, [[⟨dst, q, serve dst q⟩], { f with prog := k none } :: stack], [])
      else none
    | _ => none
  | .finish, s, [f] =>
    match f.prog with
    | .ret r => some (s, [], [(f.node, f.request, r)])
    | _ => none
  | _, _, _ => none

def makeMove : Move N Q T → Config N σ A Q R T → Option (Config N σ A Q R T)
  | .issue n q, c =>
    if allowed n q ∧ met guard (c.shared.issue n q) ⟨n, q, serve n q⟩ then
      some ⟨c.shared.issue n q, [⟨n, q, serve n q⟩] :: c.threads, c.finished⟩
    else none
  | .turn thread turn, c =>
    match c.threads.drop thread with
    | stack :: after => do
      let (s, parts, done) ← takeTurn apply serve ok guard turn c.shared stack
      return ⟨s, c.threads.take thread ++ parts ++ after, done ++ c.finished⟩
    | [] => none

def play (moves : List (Move N Q T)) (c : Config N σ A Q R T) : Option (Config N σ A Q R T) :=
  moves.foldlM (fun c move => makeMove apply serve allowed ok guard move c) c

end Play

section Soundness

variable {N σ A Q R T α : Type} [DecidableEq N] [DecidableEq Q]
variable {apply : A → σ → σ} {serve : N → Q → Prog N σ A Q R T R}
variable {allowed : N → Q → Prop} [∀ n q, Decidable (allowed n q)]
variable {ok : N → Q → A → σ → Prop} [∀ n q a s, Decidable (ok n q a s)]
variable {guard : N → Q → N → Q → σ → Prop} [∀ n q dst q' s, Decidable (guard n q dst q' s)]

omit [DecidableEq Q] in
theorem segment_of_advance {ok : A → σ → Prop} [∀ a s, Decidable (ok a s)] {n : N} {t : T}
    (p : Prog N σ A Q R T α) {p' : Prog N σ A Q R T α} {s s' : Shared N σ Q}
    (h : advance apply ok n t p s = some (p', s')) : Segment apply ok n p s p' s' := by
  induction p generalizing s with
  | ret a =>
    cases h
    exact .ret a _
  | get k ih => exact .get (ih _ h)
  | act a k ih =>
    rw [advance] at h
    split at h
    · rename_i hok
      exact .act hok (ih h)
    · cases h
  | now k ih => exact .now t (ih t h)
  | order l k ih => exact .order l (List.Perm.refl l) (ih l h)
  | call dst q k ih =>
    cases h
    exact .call dst q k _
  | crash => cases h

omit [DecidableEq N] [DecidableEq Q] in
theorem met_of_true {s : Shared N σ Q} {f : Frame N σ A Q R T} (h : met guard s f = true) :
    Met guard s f := by
  intro dst q k hf
  rw [met, hf] at h
  exact of_decide_eq_true h

/-- A turn is a step, whatever the other threads are, and what it brings to a call has
met the guard. -/
theorem step_of_takeTurn (allowed : N → Q → Prop) {turn : Turn T} {s s' : Shared N σ Q}
    {stack : List (Frame N σ A Q R T)} {parts : List (List (Frame N σ A Q R T))}
    {done : List (N × Q × R)}
    (h : takeTurn apply serve ok guard turn s stack = some (s', parts, done))
    (before after : List (List (Frame N σ A Q R T))) (finished : List (N × Q × R)) :
    Step apply serve allowed ok ⟨s, before ++ stack :: after, finished⟩
      ⟨s', before ++ parts ++ after, done ++ finished⟩ ∧
    ∀ new ∈ parts, ∀ f ∈ new, f ∈ stack ∨ Met guard s' f := by
  unfold takeTurn at h
  split at h
  · rename_i t s f stack
    obtain ⟨⟨p, s₁⟩, hadvance, h⟩ := Option.bind_eq_some_iff.mp h
    dsimp only at h
    split at h
    · rename_i hmet
      cases h
      refine ⟨?_, ?_⟩
      · rw [List.append_assoc]
        exact .segment (segment_of_advance f.prog hadvance)
      · rw [List.forall_mem_singleton, List.forall_mem_cons]
        exact ⟨Or.inr (met_of_true hmet), fun g hg => Or.inl (List.mem_cons_of_mem f hg)⟩
    · cases h
  · rename_i s f stack
    split at h
    · rename_i dst q k hcall
      split at h
      · rename_i hmet
        cases h
        refine ⟨?_, ?_⟩
        · rw [List.append_assoc]
          exact .invoke hcall
        · rw [List.forall_mem_singleton, List.forall_mem_cons]
          exact ⟨Or.inr (met_of_true hmet), fun g hg => Or.inl hg⟩
      · cases h
    · cases h
  · rename_i s g f stack
    split at h
    · rename_i r dst q k hret hcall
      split at h
      · rename_i hmet
        obtain ⟨rfl, rfl, hmet⟩ := hmet
        cases h
        refine ⟨?_, ?_⟩
        · rw [List.append_assoc]
          exact .reply hcall hret
        · rw [List.forall_mem_singleton, List.forall_mem_cons]
          exact ⟨Or.inr (met_of_true hmet),
            fun x hx => Or.inl (List.mem_cons_of_mem g (List.mem_cons_of_mem f hx))⟩
      · cases h
    · cases h
  · rename_i s f stack
    split at h
    · rename_i dst q k hcall
      split at h
      · rename_i hmet
        cases h
        refine ⟨?_, ?_⟩
        · rw [List.append_assoc]
          exact .abandon hcall
        · rw [List.forall_mem_cons, List.forall_mem_singleton, List.forall_mem_singleton,
            List.forall_mem_cons]
          exact ⟨Or.inr (met_of_true hmet.1), Or.inr (met_of_true hmet.2),
            fun g hg => Or.inl (List.mem_cons_of_mem f hg)⟩
      · cases h
    · cases h
  · rename_i s f
    split at h
    · rename_i r hret
      cases h
      refine ⟨?_, by simp⟩
      rw [List.append_nil]
      exact .finish before hret
    · cases h
  · cases h

omit [DecidableEq N] [DecidableEq Q]
  [∀ n q dst q' s, Decidable (guard n q dst q' s)] in
/-- Frames that were there before, and frames that have met the guard. -/
theorem callsMeet_of_frames {c c' : Config N σ A Q R T}
    (h : ∀ stack ∈ c'.threads, ∀ f ∈ stack,
      (∃ old ∈ c.threads, f ∈ old) ∨ Met guard c'.shared f) : CallsMeet guard c c' := by
  intro stack hstack f hf hnew dst q k hcall
  rcases h stack hstack f hf with ⟨old, hold, hfold⟩ | hmet
  · exact absurd hfold (hnew old hold)
  · exact hmet dst q k hcall

theorem step_of_makeMove {move : Move N Q T} {c c' : Config N σ A Q R T}
    (h : makeMove apply serve allowed ok guard move c = some c') :
    Step apply serve allowed ok c c' ∧ CallsMeet guard c c' := by
  obtain ⟨s, threads, finished⟩ := c
  cases move with
  | issue n q =>
    rw [makeMove] at h
    split at h
    · rename_i hissue
      cases h
      refine ⟨.issue n q hissue.1, callsMeet_of_frames ?_⟩
      simp only [List.forall_mem_cons]
      refine ⟨⟨Or.inr (met_of_true hissue.2), by simp⟩, fun stack hstack f hf => ?_⟩
      exact Or.inl ⟨stack, hstack, hf⟩
    · cases h
  | turn thread turn =>
    rw [makeMove] at h
    split at h
    · rename_i stack after hdrop
      obtain ⟨⟨s', parts, done⟩, hturn, h⟩ := Option.bind_eq_some_iff.mp h
      cases h
      have hthreads : threads = threads.take thread ++ stack :: after := by
        rw [← hdrop, List.take_append_drop]
      obtain ⟨hstep, hframes⟩ := step_of_takeTurn allowed hturn (threads.take thread)
        after finished
      rw [← hthreads] at hstep
      refine ⟨hstep, callsMeet_of_frames ?_⟩
      have hstack : stack ∈ threads := by
        rw [hthreads]
        exact List.mem_append_right _ List.mem_cons_self
      simp only [List.forall_mem_append]
      refine ⟨⟨?_, fun new hnew f hf => ?_⟩, ?_⟩
      · exact fun old hold f hf => Or.inl ⟨old, List.mem_of_mem_take hold, hf⟩
      · exact (hframes new hnew f hf).imp_left fun hf => ⟨stack, hstack, hf⟩
      · refine fun old hold f hf => Or.inl ⟨old, ?_, hf⟩
        rw [hthreads]
        exact List.mem_append_right _ (List.mem_cons_of_mem _ hold)
    · cases h

/-- What a schedule computes is reached by a run. -/
theorem reach_of_play (moves : List (Move N Q T)) {c c' : Config N σ A Q R T}
    (h : play apply serve allowed ok guard moves c = some c') :
    GuardedReach apply serve allowed ok guard c c' := by
  induction moves generalizing c with
  | nil =>
    cases h
    exact .refl
  | cons move moves ih =>
    rw [play, List.foldlM_cons] at h
    obtain ⟨c₁, hmove, h⟩ := Option.bind_eq_some_iff.mp h
    exact .head (step_of_makeMove hmove) (ih h)

end Soundness

section Observations

variable {N σ A Q R T α : Type}

/-- The call that a program has come to. -/
def calling : Prog N σ A Q R T α → Option (N × Q)
  | .call dst q _ => some (dst, q)
  | _ => none

/-- What a program has returned. -/
def returned : Prog N σ A Q R T α → Option α
  | .ret a => some a
  | _ => none

theorem of_calling {p : Prog N σ A Q R T α} {dst : N} {q : Q}
    (h : calling p = some (dst, q)) : ∃ k, p = .call dst q k := by
  cases p with
  | call dst q k =>
    cases h
    exact ⟨k, rfl⟩
  | _ => cases h

theorem of_returned {p : Prog N σ A Q R T α} {a : α} (h : returned p = some a) :
    p = .ret a := by
  cases p with
  | ret a =>
    cases h
    rfl
  | _ => cases h

/-- What can be seen of a frame. -/
def look (f : Frame N σ A Q R T) : N × Q × Option (N × Q) × Option R :=
  (f.node, f.request, calling f.prog, returned f.prog)

/-- A frame at a call, with a frame above it that has returned the reply. -/
theorem frames_of_look {c : Config N σ A Q R T} {n dst : N} {q q' : Q} {r : R}
    (h : ∃ stack ∈ c.threads,
      (stack.map look).take 2 = [(dst, q', none, some r), (n, q, some (dst, q'), none)]) :
    ∃ g f stack k, g :: f :: stack ∈ c.threads ∧ g.node = dst ∧ g.request = q' ∧
      g.prog = .ret r ∧ f.node = n ∧ f.request = q ∧ f.prog = .call dst q' k := by
  obtain ⟨stack, hstack, htop⟩ := h
  match stack, htop with
  | [_], htop => cases (List.cons.inj htop).2
  | g :: f :: stack, htop =>
    simp only [List.map_cons, List.take_succ_cons, List.take_zero, List.cons.injEq, look,
      Prod.mk.injEq, and_true] at htop
    obtain ⟨⟨hgnode, hgrequest, _, hret⟩, hnode, hrequest, hcall, _⟩ := htop
    obtain ⟨k, hk⟩ := of_calling hcall
    exact ⟨g, f, stack, k, hstack, hgnode, hgrequest, of_returned hret, hnode, hrequest, hk⟩

end Observations

end RpcSchedules
