import DynamoStore.Lib.RpcInterleaving

/-!
# Effects of handlers

Nodes keep their promises one by one: as long as the states that a handler reads are of some
kind, and its calls are answered as promised, it only changes the state and sends requests in
certain ways, and answers as promised itself. If every handler does, and these changes keep
the states of the kind, then so does every run, interleaved or not.
-/

namespace Effects

open RpcPrograms RpcInterleaving

/-- The states that a program may read, the state changes and the requests that may come
from it, the replies that these may get, and whether it may crash. -/
structure Limits (N σ A Q R : Type) where
  reads : σ → Prop
  acts : A → Prop
  calls : N → Q → Prop
  answers : N → Q → R → Prop
  crashes : Prop

section Programs

variable {N σ A Q R T α β : Type}

/-- If it reads and is answered within the limits, the program has effects within them, and
ends with `Φ`. -/
def Within (limits : Limits N σ A Q R) : Prog N σ A Q R T α → (α → Prop) → Prop
  | .ret a, Φ => Φ a
  | .get k, Φ => ∀ s, limits.reads s → Within limits (k s) Φ
  | .act a k, Φ => limits.acts a ∧ Within limits k Φ
  | .now k, Φ => ∀ t, Within limits (k t) Φ
  | .order l k, Φ => ∀ l', l'.Perm l → Within limits (k l') Φ
  | .call dst q k, Φ => limits.calls dst q ∧
      ∀ r, (∀ a, r = some a → limits.answers dst q a) → Within limits (k r) Φ
  | .crash, _ => limits.crashes

variable {limits : Limits N σ A Q R} {Φ : α → Prop}

namespace Within

theorem bind {p : Prog N σ A Q R T α} {f : α → Prog N σ A Q R T β} {Ψ : β → Prop}
    (hp : Within limits p Φ) (hf : ∀ a, Φ a → Within limits (f a) Ψ) :
    Within limits (p.bind f) Ψ := by
  induction p with
  | ret a => exact hf a hp
  | get k ih => exact fun s hs => ih s (hp s hs)
  | act a k ih => exact ⟨hp.1, ih hp.2⟩
  | now k ih => exact fun t => ih t (hp t)
  | order l k ih => exact fun l' hl => ih l' (hp l' hl)
  | call dst q k ih => exact ⟨hp.1, fun r hr => ih r (hp.2 r hr)⟩
  | crash => exact hp

theorem mono {Ψ : α → Prop} {p : Prog N σ A Q R T α} (h : ∀ a, Φ a → Ψ a)
    (hp : Within limits p Φ) : Within limits p Ψ := by
  induction p with
  | ret a => exact h a hp
  | get k ih => exact fun s hs => ih s (hp s hs)
  | act a k ih => exact ⟨hp.1, ih hp.2⟩
  | now k ih => exact fun t => ih t (hp t)
  | order l k ih => exact fun l' hl => ih l' (hp l' hl)
  | call dst q k ih => exact ⟨hp.1, fun r hr => ih r (hp.2 r hr)⟩
  | crash => exact hp

theorem ret {a : α} (h : Φ a) : Within limits (.ret a : Prog N σ A Q R T α) Φ := h

theorem read : Within limits (Prog.read : Prog N σ A Q R T σ) limits.reads := fun _ h => h

theorem perform {a : A} (h : limits.acts a) :
    Within limits (Prog.perform a : Prog N σ A Q R T Unit) fun _ => True := ⟨h, trivial⟩

theorem clock : Within limits (Prog.clock : Prog N σ A Q R T T) fun _ => True := fun _ => trivial

theorem iterate (l : List N) :
    Within limits (Prog.iterate l : Prog N σ A Q R T (List N)) fun l' => l'.Perm l :=
  fun _ hl => hl

theorem send {dst : N} {q : Q} (h : limits.calls dst q) :
    Within limits (Prog.send dst q : Prog N σ A Q R T (Option R)) fun r =>
      ∀ a, r = some a → limits.answers dst q a := ⟨h, fun _ hr => hr⟩

theorem crash (h : limits.crashes) : Within limits (.crash : Prog N σ A Q R T α) Φ := h

/-- A segment has effects within the limits, and the limits still hold after it. What the
listed changes respect, it respects. -/
theorem segment [DecidableEq N] {apply : A → σ → σ} {ok : A → σ → Prop} {n : N}
    (Rel : σ → σ → Prop) (refl : ∀ s, Rel s s)
    (trans : ∀ s s' s'', Rel s s' → Rel s' s'' → Rel s s'')
    (respects : ∀ a s, limits.acts a → ok a s → limits.reads s →
      limits.reads (apply a s) ∧ Rel s (apply a s))
    {p p' : Prog N σ A Q R T α} {s s' : Shared N σ Q} (segment : Segment apply ok n p s p' s')
    (hreads : limits.reads (s.state n)) (hp : Within limits p Φ) :
    Within limits p' Φ ∧ limits.reads (s'.state n) ∧ Rel (s.state n) (s'.state n) ∧
      ∀ m, m ≠ n → s'.state m = s.state m := by
  induction segment with
  | ret a s => exact ⟨hp, hreads, refl _, fun _ _ => rfl⟩
  | call dst q k s => exact ⟨hp, hreads, refl _, fun _ _ => rfl⟩
  | get _ ih => exact ih hreads (hp _ hreads)
  | @act a k s s' p hok _ ih =>
    obtain ⟨hkept, hrel⟩ := respects a _ hp.1 hok hreads
    obtain ⟨hp', hreads', hrel', hothers⟩ := ih (by rwa [s.modify_self]) hp.2
    refine ⟨hp', hreads', trans _ _ _ hrel ?_, fun m hm => ?_⟩
    · rwa [s.modify_self] at hrel'
    · rw [hothers m hm, s.modify_of_ne n _ hm]
  | now t _ ih => exact ih hreads (hp t)
  | order l' hl _ ih => exact ih hreads (hp l' hl)

end Within

end Programs

/-- Limits for every request on every node. -/
structure Table (N σ A Q R : Type) where
  requests : N → Q → Prop
  reads : N → σ → Prop
  acts : N → Q → A → Prop
  calls : N → Q → N → Q → Prop
  answers : N → Q → R → Prop
  crashes : Prop

def Table.limits {N σ A Q R : Type} (table : Table N σ A Q R) (n : N) (q : Q) :
    Limits N σ A Q R where
  reads := table.reads n
  acts := table.acts n q
  calls := table.calls n q
  answers := table.answers
  crashes := table.crashes

/-- The handlers keep within the table, the requests that they send are of the kind, and
the state changes keep the states of the kind. -/
structure Kept {N σ A Q R T : Type} (table : Table N σ A Q R) (apply : A → σ → σ)
    (serve : N → Q → Prog N σ A Q R T R) (ok : N → Q → A → σ → Prop) : Prop where
  serve : ∀ n q, table.requests n q → Within (table.limits n q) (serve n q) (table.answers n q)
  calls : ∀ n q dst q', table.requests n q → table.calls n q dst q' → table.requests dst q'
  acts : ∀ n q a s, table.requests n q → table.acts n q a → ok n q a s → table.reads n s →
    table.reads n (apply a s)

section Runs

variable {N σ A Q R T : Type} {apply : A → σ → σ}
variable {serve : N → Q → Prog N σ A Q R T R} {allowed : N → Q → Prop}
variable {ok : N → Q → A → σ → Prop} {table : Table N σ A Q R} {c c' : Config N σ A Q R T}

/-- The frame serves a request of the kind, and the rest of it is within its limits. -/
structure FrameWithin (table : Table N σ A Q R) (f : Frame N σ A Q R T) : Prop where
  request : table.requests f.node f.request
  within : Within (table.limits f.node f.request) f.prog (table.answers f.node f.request)

structure ConfigWithin (table : Table N σ A Q R) (c : Config N σ A Q R T) : Prop where
  states : ∀ n, table.reads n (c.shared.state n)
  frames : ∀ stack ∈ c.threads, ∀ f ∈ stack, FrameWithin table f
  finished : ∀ x ∈ c.finished, table.answers x.1 x.2.1 x.2.2

theorem configWithin_start {state : N → σ} (h : ∀ n, table.reads n (state n)) :
    ConfigWithin table (.start state : Config N σ A Q R T) :=
  ⟨h, by simp [Config.start], by simp [Config.start]⟩

theorem FrameWithin.call {f : Frame N σ A Q R T} {dst : N} {q : Q}
    {k : Option R → Prog N σ A Q R T R} (h : FrameWithin table f) (hcall : f.prog = .call dst q k) :
    table.calls f.node f.request dst q ∧ ∀ r, (∀ a, r = some a → table.answers dst q a) →
      FrameWithin table { f with prog := k r } := by
  have hwithin := h.within
  rw [hcall] at hwithin
  exact ⟨hwithin.1, fun r hr => ⟨h.request, hwithin.2 r hr⟩⟩

theorem FrameWithin.answer {f : Frame N σ A Q R T} {r : R} (h : FrameWithin table f)
    (hret : f.prog = .ret r) : table.answers f.node f.request r := by
  have hwithin := h.within
  rwa [hret] at hwithin

variable (kept : Kept table apply serve ok)

include kept

theorem Kept.serving {n : N} {q : Q} (h : table.requests n q) :
    FrameWithin table ⟨n, q, serve n q⟩ := ⟨h, kept.serve n q h⟩

/-- A request that a frame within the table sends is served within it. -/
theorem Kept.callee {f : Frame N σ A Q R T} {dst : N} {q : Q}
    {k : Option R → Prog N σ A Q R T R} (h : FrameWithin table f) (hcall : f.prog = .call dst q k) :
    FrameWithin table ⟨dst, q, serve dst q⟩ :=
  kept.serving (kept.calls _ _ _ _ h.request (h.call hcall).1)

variable [DecidableEq N] (Rel : N → σ → σ → Prop) (refl : ∀ n s, Rel n s s)
variable (trans : ∀ n s s' s'', Rel n s s' → Rel n s' s'' → Rel n s s'')
variable (respects : ∀ n q a s, table.requests n q → table.acts n q a → ok n q a s →
  table.reads n s → Rel n s (apply a s))

include refl trans respects

/-- A segment of a frame within the table. -/
theorem Kept.segment {f : Frame N σ A Q R T} {p : Prog N σ A Q R T R} {s s' : Shared N σ Q}
    (hsegment : Segment apply (ok f.node f.request) f.node f.prog s p s')
    (states : ∀ n, table.reads n (s.state n)) (h : FrameWithin table f) :
    FrameWithin table { f with prog := p } ∧ (∀ n, table.reads n (s'.state n)) ∧
      ∀ n, Rel n (s.state n) (s'.state n) := by
  obtain ⟨hp, hreads, hrel, hothers⟩ := Within.segment (Rel f.node) (refl f.node) (trans f.node)
    (fun a s hact hok hs => ⟨kept.acts _ _ a s h.request hact hok hs,
      respects _ _ a s h.request hact hok hs⟩) hsegment (states f.node) h.within
  refine ⟨⟨h.request, hp⟩, fun n => ?_, fun n => ?_⟩
  · by_cases hn : n = f.node
    · rw [hn]
      exact hreads
    · rw [hothers n hn]
      exact states n
  · by_cases hn : n = f.node
    · rw [hn]
      exact hrel
    · rw [hothers n hn]
      exact refl n _

variable (issued : ∀ n q, allowed n q → table.requests n q)

include issued

theorem Kept.step (hstep : Step apply serve allowed ok c c') (h : ConfigWithin table c) :
    ConfigWithin table c' ∧ ∀ n, Rel n (c.shared.state n) (c'.shared.state n) := by
  have hstates : (∀ n, table.reads n (c'.shared.state n)) ∧
      ∀ n, Rel n (c.shared.state n) (c'.shared.state n) := by
    rcases hstep.shared with ⟨n, q, _, hshared⟩ | ⟨stack, hs, f, hf, p, hsegment⟩ | hshared
    · rw [hshared]
      exact ⟨h.states, fun n => refl n _⟩
    · exact (kept.segment Rel refl trans respects hsegment h.states (h.frames stack hs f hf)).2
    · rw [hshared]
      exact ⟨h.states, fun n => refl n _⟩
  refine ⟨⟨hstates.1, hstep.frames h.frames (fun _ hf => hf) ?_ ?_ ?_ ?_, fun x hx => ?_⟩,
    hstates.2⟩
  · exact fun n q hallowed _ => kept.serving (issued n q hallowed)
  · exact fun f p hf hsegment => (kept.segment Rel refl trans respects hsegment h.states hf).1
  · exact fun f dst q k hf hcall => kept.callee hf hcall
  · intro f dst q k r hf hcall hreply
    refine (hf.call hcall).2 r fun a ha => ?_
    obtain ⟨g, hg, rfl, rfl, hret⟩ := hreply a ha
    exact hg.answer hret
  · rcases hstep.finished hx with hx | ⟨stack, hs, f, hf, r, hret, rfl⟩
    · exact h.finished x hx
    · exact (h.frames stack hs f hf).answer hret

/-- Every run keeps within the table, and respects what the listed changes respect. -/
theorem Kept.related (hreach : Reach apply serve allowed ok c c') (h : ConfigWithin table c) :
    ConfigWithin table c' ∧ ∀ n, Rel n (c.shared.state n) (c'.shared.state n) := by
  induction hreach with
  | refl => exact ⟨h, fun n => refl n _⟩
  | tail _ hstep ih =>
    obtain ⟨hwithin, hrel⟩ := kept.step Rel refl trans respects issued hstep ih.1
    exact ⟨hwithin, fun n => trans n _ _ _ (ih.2 n) (hrel n)⟩

omit Rel refl trans respects in
theorem Kept.reach (hreach : Reach apply serve allowed ok c c') (h : ConfigWithin table c) :
    ConfigWithin table c' :=
  (kept.related (fun _ _ _ => True) (fun _ _ => trivial) (fun _ _ _ _ _ _ => trivial)
    (fun _ _ _ _ _ _ _ _ => trivial) issued hreach h).1

end Runs

section SequentialRuns

variable {N σ A Q R T α : Type} [DecidableEq N] {apply : A → σ → σ}
variable {serve : N → Q → Prog N σ A Q R T R} {ok : N → Q → A → σ → Prop}
variable {table : Table N σ A Q R} {Rel : N → σ → σ → Prop} {w w' : World N σ}

variable (table Rel) in
/-- What a sequential run makes of the states. -/
structure Leads (state state' : N → σ) : Prop where
  states : ∀ m, table.reads m (state' m)
  related : ∀ m, Rel m (state m) (state' m)

variable (table Rel) in
/-- Calls of the kind lead on, and are answered within the table. -/
def Transports (rpc : Transport N σ Q R) : Prop :=
  ∀ dst q (w w' : World N σ) r, table.requests dst q → (∀ m, table.reads m (w.state m)) →
    rpc dst q w = some (w', r) →
    Leads table Rel w.state w'.state ∧ ∀ a, r = some a → table.answers dst q a

variable (refl : ∀ n s, Rel n s s)

omit [DecidableEq N] in
include refl in
theorem transports_network {env : Env N T}
    {handler : N → Q → World N σ → Option (World N σ × R)}
    (handles : ∀ n q (w w' : World N σ) r, table.requests n q → (∀ m, table.reads m (w.state m)) →
      handler n q w = some (w', r) → Leads table Rel w.state w'.state ∧ table.answers n q r) :
    Transports table Rel (network env handler) := by
  intro dst q w w' r request states h
  rw [network] at h
  split at h
  · obtain ⟨⟨w₁, r₁⟩, hserve, heq⟩ := Option.map_eq_some_iff.mp h
    cases heq
    obtain ⟨leads, hanswer⟩ := handles dst q w.next w₁ r₁ request states hserve
    exact ⟨leads, fun a ha => Option.some.inj ha ▸ hanswer⟩
  · cases h
    exact ⟨⟨states, fun m => refl m _⟩, by simp⟩
  · obtain ⟨⟨w₁, r₁⟩, hserve, heq⟩ := Option.map_eq_some_iff.mp h
    cases heq
    exact ⟨(handles dst q w.next w₁ r₁ request states hserve).1, by simp⟩

variable (kept : Kept table apply serve ok) (free : ∀ n q a s, ok n q a s)

include kept free

/-- A state change within the table keeps the states within it. -/
theorem Kept.modify {n : N} {q : Q} {a : A} (request : table.requests n q)
    (hact : table.acts n q a) (states : ∀ m, table.reads m (w.state m)) :
    ∀ m, table.reads m ((w.modify n (apply a)).state m) := by
  intro m
  by_cases hm : m = n
  · rw [hm, w.modify_self]
    exact kept.acts n q a _ request hact (free n q a _) (states n)
  · rw [w.modify_of_ne _ hm]
    exact states m

variable (trans : ∀ n s s' s'', Rel n s s' → Rel n s' s'' → Rel n s s'')
variable (respects : ∀ n q a s, table.requests n q → table.acts n q a → table.reads n s →
  Rel n s (apply a s))

include refl trans respects

/-- A run of a program whose calls lead on. -/
theorem Within.run {env : Env N T} {rpc : Transport N σ Q R} {n : N} {q : Q}
    (request : table.requests n q) (transports : Transports table Rel rpc)
    {p : Prog N σ A Q R T α} {Φ : α → Prop} {a : α} (hp : Within (table.limits n q) p Φ)
    (states : ∀ m, table.reads m (w.state m))
    (hrun : RpcPrograms.run apply env rpc n p w = some (w', a)) :
    Leads table Rel w.state w'.state ∧ Φ a := by
  induction p generalizing w with
  | ret b =>
    cases hrun
    exact ⟨⟨states, fun m => refl m _⟩, hp⟩
  | get k ih => exact ih _ (hp _ (states n)) states hrun
  | act x k ih =>
    obtain ⟨leads, hΦ⟩ := ih hp.2 (kept.modify free request hp.1 states) hrun
    refine ⟨⟨leads.states, fun m => trans m _ _ _ ?_ (leads.related m)⟩, hΦ⟩
    by_cases hm : m = n
    · rw [hm, w.modify_self]
      exact respects n q x _ request hp.1 (states n)
    · rw [w.modify_of_ne _ hm]
      exact refl m _
  | now k ih => exact ih _ (w := w.next) (hp _) states hrun
  | order l k ih => exact ih _ (w := w.next) (hp _ (env.perm _ _)) states hrun
  | call dst q' k ih =>
    obtain ⟨⟨w₁, r⟩, hcall, hrun⟩ := Option.bind_eq_some_iff.mp hrun
    obtain ⟨leads, hanswer⟩ :=
      transports dst q' w w₁ r (kept.calls n q dst q' request hp.1) states hcall
    obtain ⟨leads', hΦ⟩ := ih r (hp.2 r hanswer) leads.states hrun
    exact ⟨⟨leads'.states, fun m => trans m _ _ _ (leads.related m) (leads'.related m)⟩, hΦ⟩
  | crash => cases hrun

/-- Every sequential run keeps within the table, whatever is lost. -/
theorem Kept.handle {env : Env N T} {depth : Nat} {n : N} {q : Q} {r : R}
    (request : table.requests n q) (states : ∀ m, table.reads m (w.state m))
    (hrun : RpcPrograms.handle apply env serve depth n q w = some (w', r)) :
    Leads table Rel w.state w'.state ∧ table.answers n q r := by
  induction depth generalizing n q r w w' with
  | zero => cases hrun
  | succ depth ih =>
    exact Within.run refl kept free trans respects request
      (transports_network refl fun _ _ _ _ _ => ih) (kept.serve n q request) states hrun

end SequentialRuns

end Effects
