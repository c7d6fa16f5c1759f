import DynamoStore.Lib.RpcInterleaving

/-!
# Runs whose calls meet a guard

A guard restricts the calls that handlers come to: it sees the node and the request of
the handler, the call, and the state that the node has at that moment. In the runs that
meet the guard a contract may rely on it wherever a handler sends a request, which is
what the transformation `guarded` of programs expresses.
-/

namespace GuardedCalls

open RpcPrograms RpcInterleaving
open Contract (Safe)

section Runs

variable {N σ A Q R T : Type} [DecidableEq N]
variable (apply : A → σ → σ) (serve : N → Q → Prog N σ A Q R T R)
variable (allowed : N → Q → Prop) (ok : N → Q → A → σ → Prop)

/-- The handlers that a step brings to a call meet the guard there. A handler that was
at the call before has met it already. -/
def CallsMeet (guard : N → Q → N → Q → σ → Prop) (c c' : Config N σ A Q R T) : Prop :=
  ∀ stack ∈ c'.threads, ∀ f ∈ stack, (∀ stack ∈ c.threads, f ∉ stack) →
    ∀ dst q k, f.prog = .call dst q k → guard f.node f.request dst q (c'.shared.state f.node)

/-- The configurations that runs from `c` reach when all calls meet the guard. -/
abbrev GuardedReach (guard : N → Q → N → Q → σ → Prop) :
    Config N σ A Q R T → Config N σ A Q R T → Prop :=
  Relation.ReflTransGen fun c c' => Step apply serve allowed ok c c' ∧ CallsMeet guard c c'

variable {apply serve allowed ok}

theorem GuardedReach.reach {guard : N → Q → N → Q → σ → Prop} {c c' : Config N σ A Q R T}
    (h : GuardedReach apply serve allowed ok guard c c') :
    Reach apply serve allowed ok c c' :=
  Relation.ReflTransGen.mono (fun _ _ hstep => hstep.1) c c' h

end Runs

section Programs

variable {N σ A Q R T α β : Type} {guard : N → Q → σ → Prop}

open Classical in
/-- Crash instead of a call that does not meet the guard. -/
noncomputable def guarded (guard : N → Q → σ → Prop) :
    Prog N σ A Q R T α → Prog N σ A Q R T α
  | .ret a => .ret a
  | .get k => .get fun s => guarded guard (k s)
  | .act a k => .act a (guarded guard k)
  | .now k => .now fun t => guarded guard (k t)
  | .order l k => .order l fun l' => guarded guard (k l')
  | .call dst q k => .get fun s =>
      if guard dst q s then .call dst q fun r => guarded guard (k r) else .crash
  | .crash => .crash

theorem guarded_bind (p : Prog N σ A Q R T α) (f : α → Prog N σ A Q R T β) :
    guarded guard (p.bind f) = (guarded guard p).bind fun a => guarded guard (f a) := by
  induction p with
  | ret a => rfl
  | get k ih => simp only [Prog.bind, guarded, ih]
  | act a k ih => simp only [Prog.bind, guarded, ih]
  | now k ih => simp only [Prog.bind, guarded, ih]
  | order l k ih => simp only [Prog.bind, guarded, ih]
  | call dst q k ih =>
    simp only [Prog.bind, guarded, ih]
    congr 1
    funext s
    split
    · rfl
    · rfl
  | crash => rfl

variable [DecidableEq N] {C : Contract N σ Q R} {apply : A → σ → σ} {ok : A → σ → Prop} {n : N}

theorem wp_guarded_call {dst : N} {q : Q} {k : Option R → Prog N σ A Q R T α}
    {Φ : α → Shared N σ Q → Prop} {s : Shared N σ Q} :
    C.wp apply ok n (guarded guard (.call dst q k)) Φ s ↔ (guard dst q (s.state n) →
      C.wp apply ok n (.call dst q fun r => guarded guard (k r)) Φ s) := by
  rw [guarded, Contract.wp]
  split
  · rename_i hguard
    exact ⟨fun h _ => h, fun h => h hguard⟩
  · rename_i hguard
    exact ⟨fun _ h => absurd h hguard, fun _ => trivial⟩

/-- A program that keeps a contract without the guard keeps it with the guard. -/
theorem wp_guarded (p : Prog N σ A Q R T α) {Φ : α → Shared N σ Q → Prop} {s : Shared N σ Q}
    (h : C.wp apply ok n p Φ s) : C.wp apply ok n (guarded guard p) Φ s := by
  induction p generalizing s with
  | ret a => exact h
  | get k ih => exact ih _ h
  | act a k ih =>
    intro hok
    obtain ⟨hinv, hevo, hk⟩ := h hok
    exact ⟨hinv, hevo, ih hk⟩
  | now k ih => exact fun t => ih t (h t)
  | order l k ih => exact fun l' hl => ih l' (h l' hl)
  | call dst q k ih =>
    refine wp_guarded_call.mpr fun _ => ?_
    exact ⟨h.1, fun s' r hevo hinv hpost => ih r (h.2 s' r hevo hinv hpost)⟩
  | crash => trivial

theorem wp_guarded_segment {p p' : Prog N σ A Q R T α} {s s' : Shared N σ Q}
    {Φ : α → Shared N σ Q → Prop} (segment : Segment apply ok n p s p' s') (hinv : C.inv s)
    (h : C.wp apply ok n (guarded guard p) Φ s) :
    C.inv s' ∧ C.evolves s s' ∧ C.wp apply ok n (guarded guard p') Φ s' := by
  induction segment with
  | ret a s => exact ⟨hinv, C.refl s, h⟩
  | call dst q k s => exact ⟨hinv, C.refl s, h⟩
  | get _ ih => exact ih hinv h
  | act hok _ ih =>
    obtain ⟨hinv', hevo, hk⟩ := h hok
    obtain ⟨hinv'', hevo', hk'⟩ := ih hinv' hk
    exact ⟨hinv'', C.trans hevo hevo', hk'⟩
  | now t _ ih => exact ih hinv (h t)
  | order l' hl _ ih => exact ih hinv (h l' hl)

variable {P : Shared N σ Q → Prop} {Φ : α → Shared N σ Q → Prop}

theorem safe_guarded {p : Prog N σ A Q R T α} (h : Safe C apply ok n P p Φ) :
    Safe C apply ok n P (guarded guard p) Φ :=
  fun s hinv hP => wp_guarded p (h s hinv hP)

theorem safe_guarded_bind {p : Prog N σ A Q R T α} {f : α → Prog N σ A Q R T β}
    {Ψ : β → Shared N σ Q → Prop} (hp : Safe C apply ok n P (guarded guard p) Φ)
    (hf : ∀ a, Safe C apply ok n (Φ a) (guarded guard (f a)) Ψ) :
    Safe C apply ok n P (guarded guard (p.bind f)) Ψ := by
  rw [guarded_bind]
  exact Contract.Safe.bind hp hf

/-- Where a request is sent, its precondition may be taken from the guard. -/
theorem safe_guarded_send {dst : N} {q : Q}
    (hpre : ∀ s, C.inv s → P s → guard dst q (s.state n) → C.pre dst q s) :
    Safe C apply ok n P (guarded guard (Prog.send dst q : Prog N σ A Q R T (Option R)))
      fun r s => ∀ a, r = some a → C.post dst q a s := by
  intro s hinv hP
  refine wp_guarded_call.mpr fun hguard => ?_
  exact ⟨hpre s hinv hP hguard, fun _ _ hevo hinv' hpost => ⟨hinv', hevo, hpost⟩⟩

end Programs

section Soundness

variable {N σ A Q R T : Type} [DecidableEq N] {C : Contract N σ Q R}
variable {apply : A → σ → σ} {serve : N → Q → Prog N σ A Q R T R} {allowed : N → Q → Prop}
variable {ok : N → Q → A → σ → Prop} {guard : N → Q → N → Q → σ → Prop}

/-- Every handler keeps the contract where its calls meet the guard. -/
structure GuardVerified (C : Contract N σ Q R) (apply : A → σ → σ)
    (serve : N → Q → Prog N σ A Q R T R) (allowed : N → Q → Prop) (ok : N → Q → A → σ → Prop)
    (guard : N → Q → N → Q → σ → Prop) : Prop where
  issue : ∀ s n q, C.inv s → allowed n q →
    C.inv (s.issue n q) ∧ C.evolves s (s.issue n q) ∧ C.pre n q (s.issue n q)
  body : ∀ s n q, C.inv s → C.pre n q s →
    C.wp apply (ok n q) n (guarded (guard n q) (serve n q)) (C.post n q) s

/-- At any later time a handler may go on with this program. -/
def MayRun (C : Contract N σ Q R) (apply : A → σ → σ) (ok : N → Q → A → σ → Prop)
    (guard : N → Q → N → Q → σ → Prop) (s : Shared N σ Q) (n : N) (q : Q)
    (p : Prog N σ A Q R T R) : Prop :=
  ∀ s', C.evolves s s' → C.inv s' →
    C.wp apply (ok n q) n (guarded (guard n q) p) (C.post n q) s'

/-- A frame may go on. The call that it has come to needs no guard any more. -/
structure GuardedFrameOk (C : Contract N σ Q R) (apply : A → σ → σ)
    (ok : N → Q → A → σ → Prop) (guard : N → Q → N → Q → σ → Prop) (s : Shared N σ Q)
    (f : Frame N σ A Q R T) : Prop where
  call : ∀ dst q k, f.prog = .call dst q k →
    C.wp apply (ok f.node f.request) f.node
      (.call dst q fun r => guarded (guard f.node f.request) (k r)) (C.post f.node f.request) s
  other : (∀ dst q k, f.prog ≠ .call dst q k) →
    MayRun C apply ok guard s f.node f.request f.prog

theorem GuardedFrameOk.later {s s' : Shared N σ Q} {f : Frame N σ A Q R T}
    (hevo : C.evolves s s') (h : GuardedFrameOk C apply ok guard s f) :
    GuardedFrameOk C apply ok guard s' f := by
  refine ⟨fun dst q k hf => ?_, fun hf s'' hevo' => h.other hf s'' (C.trans hevo hevo')⟩
  obtain ⟨hpre, hk⟩ := h.call dst q k hf
  exact ⟨C.pre_stable hevo hpre, fun s'' r hevo' => hk s'' r (C.trans hevo hevo')⟩

/-- A frame that may go on if the call that it has come to meets the guard. -/
structure Resumable (C : Contract N σ Q R) (apply : A → σ → σ)
    (ok : N → Q → A → σ → Prop) (guard : N → Q → N → Q → σ → Prop) (s : Shared N σ Q)
    (f : Frame N σ A Q R T) : Prop where
  now : C.wp apply (ok f.node f.request) f.node
    (guarded (guard f.node f.request) f.prog) (C.post f.node f.request) s
  later : (∀ dst q k, f.prog ≠ .call dst q k) →
    MayRun C apply ok guard s f.node f.request f.prog

theorem Resumable.frameOk {s : Shared N σ Q} {f : Frame N σ A Q R T}
    (h : Resumable C apply ok guard s f)
    (meets : ∀ dst q k, f.prog = .call dst q k → guard f.node f.request dst q (s.state f.node)) :
    GuardedFrameOk C apply ok guard s f := by
  refine ⟨fun dst q k hf => ?_, h.later⟩
  have now := h.now
  rw [hf] at now
  exact wp_guarded_call.mp now (meets dst q k hf)

theorem MayRun.resumable {s : Shared N σ Q} {n : N} {q : Q} {p : Prog N σ A Q R T R}
    (may : MayRun C apply ok guard s n q p) (hinv : C.inv s) :
    Resumable C apply ok guard s ⟨n, q, p⟩ :=
  ⟨may s (C.refl s) hinv, fun _ => may⟩

theorem mayRun_serve (verified : GuardVerified C apply serve allowed ok guard)
    {s : Shared N σ Q} {n : N} {q : Q} (hpre : C.pre n q s) :
    MayRun C apply ok guard s n q (serve n q) :=
  fun s' hevo hinv => verified.body s' n q hinv (C.pre_stable hevo hpre)

theorem GuardedFrameOk.resume {s : Shared N σ Q} {f : Frame N σ A Q R T} {dst : N} {q : Q}
    {k : Option R → Prog N σ A Q R T R} {r : Option R}
    (h : GuardedFrameOk C apply ok guard s f) (hf : f.prog = .call dst q k)
    (hpost : ∀ a, r = some a → C.post dst q a s) :
    MayRun C apply ok guard s f.node f.request (k r) :=
  fun s' hevo hinv =>
    (h.call dst q k hf).2 s' r hevo hinv fun a ha => C.post_stable hevo (hpost a ha)

/-- A frame at its end has a reply whose postcondition holds. -/
theorem GuardedFrameOk.post_of_ret {s : Shared N σ Q} {f : Frame N σ A Q R T} {r : R}
    (h : GuardedFrameOk C apply ok guard s f) (hinv : C.inv s) (hf : f.prog = .ret r) :
    C.post f.node f.request r s := by
  have may := h.other (by simp [hf]) s (C.refl s) hinv
  rw [hf] at may
  exact may

/-- After a segment the frame is as it was, or it may go on from its boundary. -/
theorem GuardedFrameOk.segment {s s' : Shared N σ Q} {f : Frame N σ A Q R T}
    {p : Prog N σ A Q R T R} (h : GuardedFrameOk C apply ok guard s f)
    (hseg : Segment apply (ok f.node f.request) f.node f.prog s p s') (hinv : C.inv s) :
    C.inv s' ∧ C.evolves s s' ∧
      ({ f with prog := p } ≠ f → Resumable C apply ok guard s' { f with prog := p }) := by
  by_cases hcall : ∃ dst q k, f.prog = .call dst q k
  · obtain ⟨dst, q, k, hf⟩ := hcall
    rw [hf] at hseg
    cases hseg
    exact ⟨hinv, C.refl s, fun hmoved => absurd (by rw [← hf]) hmoved⟩
  · have may := h.other fun dst q k hf => hcall ⟨dst, q, k, hf⟩
    obtain ⟨hinv', hevo, hwp⟩ := wp_guarded_segment hseg hinv (may s (C.refl s) hinv)
    refine ⟨hinv', hevo, fun _ => ⟨hwp, fun hend => ?_⟩⟩
    rcases hseg.boundary with ⟨r, rfl⟩ | ⟨dst, q, k, rfl⟩
    · exact fun s'' hevo' _ => C.post_stable hevo' hwp
    · exact absurd rfl (hend dst q k)

/-- What holds between two steps of a run that meets the guard. -/
structure GuardedConfigOk (C : Contract N σ Q R) (apply : A → σ → σ)
    (ok : N → Q → A → σ → Prop) (guard : N → Q → N → Q → σ → Prop)
    (c : Config N σ A Q R T) : Prop where
  inv : C.inv c.shared
  frames : ∀ stack ∈ c.threads, ∀ f ∈ stack, GuardedFrameOk C apply ok guard c.shared f

/-- A step keeps the invariant, and the shared state evolves. -/
theorem GuardedConfigOk.shared (verified : GuardVerified C apply serve allowed ok guard)
    {c c' : Config N σ A Q R T} (h : GuardedConfigOk C apply ok guard c)
    (hstep : Step apply serve allowed ok c c') :
    C.inv c'.shared ∧ C.evolves c.shared c'.shared := by
  rcases hstep.shared with ⟨n, q, hallowed, hshared⟩ | ⟨stack, hs, f, hf, p, hseg⟩ | hshared
  · obtain ⟨hinv, hevo, _⟩ := verified.issue _ n q h.inv hallowed
    rw [hshared]
    exact ⟨hinv, hevo⟩
  · obtain ⟨hinv, hevo, _⟩ := (h.frames stack hs f hf).segment hseg h.inv
    exact ⟨hinv, hevo⟩
  · rw [hshared]
    exact ⟨h.inv, C.refl _⟩

/-- The frames that a step has made new may go on if their calls meet the guard. -/
theorem GuardedConfigOk.resumable (verified : GuardVerified C apply serve allowed ok guard)
    {c c' : Config N σ A Q R T} (h : GuardedConfigOk C apply ok guard c)
    (hstep : Step apply serve allowed ok c c') :
    ∀ stack ∈ c'.threads, ∀ f ∈ stack, (∀ stack ∈ c.threads, f ∉ stack) →
      Resumable C apply ok guard c'.shared f := by
  obtain ⟨hinv, hevo⟩ := h.shared verified hstep
  have old : ∀ stack ∈ c.threads, ∀ f ∈ stack,
      (∃ stack ∈ c.threads, f ∈ stack) ∧ GuardedFrameOk C apply ok guard c.shared f :=
    fun stack hs f hf => ⟨⟨stack, hs, hf⟩, h.frames stack hs f hf⟩
  refine hstep.frames old ?_ ?_ ?_ ?_ ?_
  · rintro f ⟨⟨stack, hs, hf⟩, _⟩ hnew
    exact absurd hf (hnew stack hs)
  · intro n q hallowed hshared _
    have hpre := (verified.issue _ n q h.inv hallowed).2.2
    rw [← hshared] at hpre
    exact (mayRun_serve verified hpre).resumable hinv
  · rintro f p ⟨⟨stack, hs, hf⟩, hok⟩ hseg hnew
    refine (hok.segment hseg h.inv).2.2 fun hsame => hnew stack hs ?_
    rw [hsame]
    exact hf
  · rintro f dst q k ⟨_, hok⟩ hcall _
    have hpre := (hok.call dst q k hcall).1
    exact (mayRun_serve verified (C.pre_stable hevo hpre)).resumable hinv
  · rintro f dst q k r ⟨_, hok⟩ hcall hreply _
    refine ((hok.later hevo).resume hcall fun a ha => ?_).resumable hinv
    obtain ⟨g, ⟨_, hg⟩, rfl, rfl, hret⟩ := hreply a ha
    exact C.post_stable hevo (hg.post_of_ret h.inv hret)

/-- Every step of a run that meets the guard keeps the contract. -/
theorem GuardedConfigOk.step (verified : GuardVerified C apply serve allowed ok guard)
    {c c' : Config N σ A Q R T} (h : GuardedConfigOk C apply ok guard c)
    (hstep : Step apply serve allowed ok c c') (meets : CallsMeet guard c c') :
    GuardedConfigOk C apply ok guard c' := by
  obtain ⟨hinv, hevo⟩ := h.shared verified hstep
  refine ⟨hinv, fun stack hs f hf => ?_⟩
  by_cases hold : ∃ stack ∈ c.threads, f ∈ stack
  · obtain ⟨old, hold, hf⟩ := hold
    exact (h.frames old hold f hf).later hevo
  · have hnew : ∀ stack ∈ c.threads, f ∉ stack := fun old hmem hf => hold ⟨old, hmem, hf⟩
    have hnow := h.resumable verified hstep stack hs f hf hnew
    exact hnow.frameOk (meets stack hs f hf hnew)

theorem GuardedConfigOk.reach (verified : GuardVerified C apply serve allowed ok guard)
    {c c' : Config N σ A Q R T} (h : GuardedConfigOk C apply ok guard c)
    (hreach : GuardedReach apply serve allowed ok guard c c') :
    GuardedConfigOk C apply ok guard c' := by
  induction hreach with
  | refl => exact h
  | tail _ hstep ih => exact ih.step verified hstep.1 hstep.2

theorem guardedConfigOk_start {state : N → σ} (hinv : C.inv ⟨state, []⟩) :
    GuardedConfigOk C apply ok guard (.start state : Config N σ A Q R T) :=
  ⟨hinv, by simp [Config.start]⟩

end Soundness

end GuardedCalls
