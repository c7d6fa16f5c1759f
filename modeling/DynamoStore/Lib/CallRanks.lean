import DynamoStore.Lib.Effects
import Mathlib.Data.List.Perm.Subperm

/-!
# Ranks of requests

Where requests are only sent for requests of a higher rank, nobody waits for himself: calls
are nested no deeper than the ranks go, a bound on their depth makes no difference above that,
and if no handler crashes, whatever is going on can be brought to an end.
-/

namespace CallRanks

open RpcPrograms RpcInterleaving Effects

variable {N σ A Q R T α : Type} {apply : A → σ → σ}
variable {serve : N → Q → Prog N σ A Q R T R} {allowed : N → Q → Prop}
variable {ok : N → Q → A → σ → Prop} {table : Table N σ A Q R} {c c' : Config N σ A Q R T}

/-- In a thread every frame waits for the one above it. -/
structure Stacked (stack : List (Frame N σ A Q R T)) : Prop where
  running : stack ≠ []
  waiting : stack.IsChain fun g f => ∃ k, f.prog = .call g.node g.request k

theorem Stacked.tail {g f : Frame N σ A Q R T} {stack : List (Frame N σ A Q R T)}
    (h : Stacked (g :: f :: stack)) : Stacked (f :: stack) :=
  ⟨List.cons_ne_nil _ _, (List.isChain_cons_cons.mp h.waiting).2⟩

/-- What a frame does leaves those below it waiting. -/
theorem Stacked.moved {f : Frame N σ A Q R T} {stack : List (Frame N σ A Q R T)}
    (p : Prog N σ A Q R T R) (h : Stacked (f :: stack)) :
    Stacked ({ f with prog := p } :: stack) := by
  refine ⟨List.cons_ne_nil _ _, ?_⟩
  cases stack with
  | nil => exact List.IsChain.singleton _
  | cons g stack => exact List.isChain_cons_cons.mpr (List.isChain_cons_cons.mp h.waiting)

/-- The request from outside that a thread is about. -/
def outermost (stack : List (Frame N σ A Q R T)) : Option (N × Q) :=
  stack.getLast?.map fun f => (f.node, f.request)

theorem outermost_moved (f : Frame N σ A Q R T) (p : Prog N σ A Q R T R)
    (stack : List (Frame N σ A Q R T)) :
    outermost ({ f with prog := p } :: stack) = outermost (f :: stack) := by
  cases stack with
  | nil => rfl
  | cons g stack => simp only [outermost, List.getLast?_cons_cons]

theorem Stacked.singleton (f : Frame N σ A Q R T) : Stacked [f] :=
  ⟨List.cons_ne_nil _ _, List.IsChain.singleton _⟩

variable [DecidableEq N]

theorem stacked_step (hstep : Step apply serve allowed ok c c')
    (h : ∀ stack ∈ c.threads, Stacked stack) : ∀ stack ∈ c'.threads, Stacked stack := by
  cases hstep with
  | issue n q _ =>
    rw [List.forall_mem_cons]
    exact ⟨.singleton _, h⟩
  | segment _ =>
    simp only [List.forall_mem_append, List.forall_mem_cons] at h ⊢
    exact ⟨h.1, h.2.1.moved _, h.2.2⟩
  | @invoke s before after stack finished dst q k f hcall =>
    simp only [List.forall_mem_append, List.forall_mem_cons] at h ⊢
    exact ⟨h.1, ⟨List.cons_ne_nil _ _, List.isChain_cons_cons.mpr ⟨⟨k, hcall⟩, h.2.1.waiting⟩⟩,
      h.2.2⟩
  | reply _ _ =>
    simp only [List.forall_mem_append, List.forall_mem_cons] at h ⊢
    exact ⟨h.1, h.2.1.tail.moved _, h.2.2⟩
  | abandon _ =>
    simp only [List.forall_mem_append, List.forall_mem_cons] at h ⊢
    exact ⟨h.1, .singleton _, h.2.1.moved _, h.2.2⟩
  | finish before _ =>
    simp only [List.forall_mem_append, List.forall_mem_cons] at h ⊢
    exact ⟨h.1, h.2.2⟩

theorem stacked_of_reach (hreach : Reach apply serve allowed ok c c')
    (h : ∀ stack ∈ c.threads, Stacked stack) : ∀ stack ∈ c'.threads, Stacked stack := by
  induction hreach with
  | refl => exact h
  | tail _ hstep ih => exact stacked_step hstep ih

variable {rank : N → Q → Nat}
variable (descends : ∀ n q dst q', table.requests n q → table.calls n q dst q' →
  rank dst q' < rank n q)

include descends

omit [DecidableEq N] in
/-- Every frame waits for one of a lower rank. -/
theorem Stacked.descending {stack : List (Frame N σ A Q R T)} (h : Stacked stack)
    (within : ∀ f ∈ stack, FrameWithin table f) :
    stack.Pairwise fun g f => rank g.node g.request < rank f.node f.request := by
  induction stack with
  | nil => exact .nil
  | cons g stack ih =>
    rw [List.forall_mem_cons] at within
    cases stack with
    | nil => exact List.pairwise_singleton _ _
    | cons f stack =>
      have hrest := ih h.tail within.2
      obtain ⟨⟨k, hcall⟩, _⟩ := List.isChain_cons_cons.mp h.waiting
      have hf := within.2 f List.mem_cons_self
      have hlt := descends _ _ _ _ hf.request (hf.call hcall).1
      refine List.pairwise_cons.mpr ⟨?_, hrest⟩
      rw [List.forall_mem_cons]
      exact ⟨hlt, fun f' hf' => Nat.lt_trans hlt ((List.pairwise_cons.mp hrest).1 f' hf')⟩

omit [DecidableEq N] in
/-- No more frames are on top of each other than there are ranks. -/
theorem Stacked.length_le {stack : List (Frame N σ A Q R T)} (h : Stacked stack)
    (within : ∀ f ∈ stack, FrameWithin table f) {limit : Nat} (low : ∀ n q, rank n q < limit) :
    stack.length ≤ limit := by
  have distinct : (stack.map fun f => rank f.node f.request).Nodup :=
    List.pairwise_map.mpr ((h.descending descends within).imp Nat.ne_of_lt)
  have inside : ∀ k ∈ stack.map fun f => rank f.node f.request, k ∈ List.range limit := by
    intro k hk
    obtain ⟨f, _, rfl⟩ := List.mem_map.mp hk
    exact List.mem_range.mpr (low _ _)
  have hle := (distinct.subperm inside).length_le
  rwa [List.length_map, List.length_range] at hle

section SequentialRuns

variable {env : Env N T} {n : N} {q : Q} {w w' : World N σ}
variable (kept : Kept table apply serve ok) (free : ∀ n q a s, ok n q a s)

include kept free

omit descends in
/-- A run only depends on the calls that can come up. -/
theorem run_eq {rpc rpc' : Transport N σ Q R} (request : table.requests n q)
    (transports : Transports table (fun _ _ _ => True) rpc)
    (same : ∀ dst q' (w : World N σ), table.calls n q dst q' → (∀ m, table.reads m (w.state m)) →
      rpc dst q' w = rpc' dst q' w)
    {p : Prog N σ A Q R T α} {Φ : α → Prop} (hp : Within (table.limits n q) p Φ)
    (states : ∀ m, table.reads m (w.state m)) :
    run apply env rpc n p w = run apply env rpc' n p w := by
  induction p generalizing w with
  | ret a => rfl
  | get k ih => exact ih _ (hp _ (states n)) states
  | act a k ih => exact ih hp.2 (kept.modify free request hp.1 states)
  | now k ih => exact ih _ (w := w.next) (hp _) states
  | order l k ih => exact ih _ (w := w.next) (hp _ (env.perm _ _)) states
  | call dst q' k ih =>
    rw [run, run, ← same dst q' w hp.1 states]
    cases hcall : rpc dst q' w with
    | none => rfl
    | some x =>
      obtain ⟨leads, hanswer⟩ :=
        transports dst q' w x.1 x.2 (kept.calls n q dst q' request hp.1) states hcall
      exact ih x.2 (hp.2 x.2 hanswer) leads.states
  | crash => rfl

omit descends in
/-- A run comes to its end if its calls do. -/
theorem run_isSome {rpc : Transport N σ Q R} (request : table.requests n q)
    (transports : Transports table (fun _ _ _ => True) rpc) (firm : ¬ table.crashes)
    (ends : ∀ dst q' (w : World N σ), table.calls n q dst q' → (∀ m, table.reads m (w.state m)) →
      (rpc dst q' w).isSome)
    {p : Prog N σ A Q R T α} {Φ : α → Prop} (hp : Within (table.limits n q) p Φ)
    (states : ∀ m, table.reads m (w.state m)) : (run apply env rpc n p w).isSome := by
  induction p generalizing w with
  | ret a => rfl
  | get k ih => exact ih _ (hp _ (states n)) states
  | act a k ih => exact ih hp.2 (kept.modify free request hp.1 states)
  | now k ih => exact ih _ (w := w.next) (hp _) states
  | order l k ih => exact ih _ (w := w.next) (hp _ (env.perm _ _)) states
  | call dst q' k ih =>
    obtain ⟨x, hcall⟩ := Option.isSome_iff_exists.mp (ends dst q' w hp.1 states)
    obtain ⟨leads, hanswer⟩ :=
      transports dst q' w x.1 x.2 (kept.calls n q dst q' request hp.1) states hcall
    rw [run, hcall]
    exact ih x.2 (hp.2 x.2 hanswer) leads.states
  | crash => exact absurd hp firm

omit descends in
theorem transports_handle (depth : Nat) : Transports table (fun _ _ _ => True)
    (network env (handle apply env serve depth)) :=
  transports_network (fun _ _ => trivial) fun _ _ _ _ _ request states h =>
    kept.handle (fun _ _ => trivial) free (fun _ _ _ _ _ _ => trivial)
      (fun _ _ _ _ _ _ _ => trivial) request states h

/-- A depth above the rank of a request is as good as any other. -/
theorem handle_eq_of_rank {depth depth' : Nat} (h : rank n q < depth) (h' : rank n q < depth')
    (request : table.requests n q) (states : ∀ m, table.reads m (w.state m)) :
    handle apply env serve depth n q w = handle apply env serve depth' n q w := by
  induction depth generalizing n q depth' w with
  | zero => exact absurd h (Nat.not_lt_zero _)
  | succ depth ih =>
    obtain ⟨depth', rfl⟩ := Nat.exists_eq_add_one.mpr (Nat.zero_lt_of_lt h')
    refine run_eq kept free request (transports_handle kept free depth)
      (fun dst q' w hcalls hw => ?_) (kept.serve n q request) states
    have hlt := descends n q dst q' request hcalls
    have same := ih (Nat.lt_of_lt_of_le hlt (Nat.lt_succ_iff.mp h))
      (Nat.lt_of_lt_of_le hlt (Nat.lt_succ_iff.mp h')) (kept.calls n q dst q' request hcalls)
      (w := w.next) hw
    rw [network, network, same]

/-- If no handler crashes, every request is answered, whatever is lost. -/
theorem handle_isSome {depth : Nat} (firm : ¬ table.crashes) (h : rank n q < depth)
    (request : table.requests n q) (states : ∀ m, table.reads m (w.state m)) :
    (handle apply env serve depth n q w).isSome := by
  induction depth generalizing n q w with
  | zero => exact absurd h (Nat.not_lt_zero _)
  | succ depth ih =>
    refine run_isSome kept free request (transports_handle kept free depth) firm
      (fun dst q' w hcalls hw => ?_) (kept.serve n q request) states
    have hlt := Nat.lt_of_lt_of_le (descends n q dst q' request hcalls) (Nat.lt_succ_iff.mp h)
    have ends := ih hlt (kept.calls n q dst q' request hcalls) (w := w.next) hw
    rw [network]
    split
    · rwa [Option.isSome_map]
    · rfl
    · rwa [Option.isSome_map]

end SequentialRuns

section Completion

variable [Nonempty T] {n : N} {q : Q}

/-- Runs in which no new requests come in. -/
abbrev GoesOn (apply : A → σ → σ) (serve : N → Q → Prog N σ A Q R T R)
    (ok : N → Q → A → σ → Prop) : Config N σ A Q R T → Config N σ A Q R T → Prop :=
  Reach apply serve (fun _ _ => False) ok

/-- On top of whatever thread, the handler can be run to its reply. -/
def Finishes (table : Table N σ A Q R) (apply : A → σ → σ) (serve : N → Q → Prog N σ A Q R T R)
    (ok : N → Q → A → σ → Prop) (n : N) (q : Q) (p : Prog N σ A Q R T R) : Prop :=
  ∀ (s : Shared N σ Q) before stack after finished, (∀ m, table.reads m (s.state m)) →
    ∃ s' r, (∀ m, table.reads m (s'.state m)) ∧ table.answers n q r ∧
      GoesOn apply serve ok ⟨s, before ++ (⟨n, q, p⟩ :: stack) :: after, finished⟩
        ⟨s', before ++ (⟨n, q, .ret r⟩ :: stack) :: after, finished⟩

variable (kept : Kept table apply serve ok) (free : ∀ n q a s, ok n q a s)
variable (firm : ¬ table.crashes)

include kept free firm

omit descends in
/-- Up to its next call or its return nothing stops a handler, and nothing does after that
if the handlers that it calls finish. -/
theorem exists_segment (request : table.requests n q)
    (callees : ∀ dst q', table.calls n q dst q' →
      Finishes table apply serve ok dst q' (serve dst q'))
    {p : Prog N σ A Q R T R} (hp : Within (table.limits n q) p (table.answers n q))
    {s : Shared N σ Q} (states : ∀ m, table.reads m (s.state m)) :
    ∃ p' s', Segment apply (ok n q) n p s p' s' ∧ (∀ m, table.reads m (s'.state m)) ∧
      Finishes table apply serve ok n q p' := by
  induction p generalizing s with
  | ret r =>
    exact ⟨_, s, .ret r s, states, fun s' _ _ _ _ states' => ⟨s', r, states', hp, .refl⟩⟩
  | get k ih =>
    obtain ⟨p', s', hsegment, h⟩ := ih _ (hp _ (states n)) states
    exact ⟨p', s', .get hsegment, h⟩
  | act a k ih =>
    obtain ⟨p', s', hsegment, h⟩ := ih hp.2 (s := s.modify n (apply a)) fun m => by
      by_cases hm : m = n
      · rw [hm, s.modify_self]
        exact kept.acts n q a _ request hp.1 (free n q a _) (states n)
      · rw [s.modify_of_ne n _ hm]
        exact states m
    exact ⟨p', s', .act (free n q a _) hsegment, h⟩
  | now k ih =>
    obtain ⟨t⟩ := ‹Nonempty T›
    obtain ⟨p', s', hsegment, h⟩ := ih t (hp t) states
    exact ⟨p', s', .now t hsegment, h⟩
  | order l k ih =>
    obtain ⟨p', s', hsegment, h⟩ := ih l (hp l (List.Perm.refl l)) states
    exact ⟨p', s', .order l (List.Perm.refl l) hsegment, h⟩
  | call dst q' k ih =>
    refine ⟨_, s, .call dst q' k s, states, fun s' before stack after finished states' => ?_⟩
    -- the callee is run to its reply, and then the rest up to the next boundary
    obtain ⟨s₁, r, states₁, hanswer, hcallee⟩ :=
      callees dst q' hp.1 s' before (⟨n, q, .call dst q' k⟩ :: stack) after finished states'
    obtain ⟨p', s₂, hsegment, states₂, hfinishes⟩ :=
      ih (some r) (hp.2 (some r) fun a ha => Option.some.inj ha ▸ hanswer) states₁
    obtain ⟨s₃, r', states₃, hanswer', hrest⟩ := hfinishes s₂ before stack after finished states₂
    refine ⟨s₃, r', states₃, hanswer', ?_⟩
    have invoked : Step apply serve (fun _ _ => False) ok
        ⟨s', before ++ (⟨n, q, .call dst q' k⟩ :: stack) :: after, finished⟩
        ⟨s', before ++ (⟨dst, q', serve dst q'⟩ :: ⟨n, q, .call dst q' k⟩ :: stack) :: after,
          finished⟩ := .invoke rfl
    exact .head invoked (hcallee.trans (.head (.reply rfl rfl) (.head (.segment hsegment) hrest)))
  | crash => exact absurd hp firm

theorem finishes_serve (request : table.requests n q) :
    Finishes table apply serve ok n q (serve n q) := by
  obtain ⟨bound, hbound⟩ : ∃ bound, rank n q < bound := ⟨_, Nat.lt_succ_self _⟩
  induction bound generalizing n q with
  | zero => exact absurd hbound (Nat.not_lt_zero _)
  | succ bound ih =>
    intro s before stack after finished states
    obtain ⟨p', s', hsegment, states', hfinishes⟩ := exists_segment kept free firm request
      (fun dst q' hcalls => ih (kept.calls n q dst q' request hcalls)
        (Nat.lt_of_lt_of_le (descends n q dst q' request hcalls) (Nat.lt_succ_iff.mp hbound)))
      (kept.serve n q request) states
    obtain ⟨s'', r, states'', hanswer, hrest⟩ := hfinishes s' before stack after finished states'
    exact ⟨s'', r, states'', hanswer, .head (.segment hsegment) hrest⟩

theorem finishes_frame {f : Frame N σ A Q R T} (h : FrameWithin table f) :
    Finishes table apply serve ok f.node f.request f.prog := by
  intro s before stack after finished states
  obtain ⟨p', s', hsegment, states', hfinishes⟩ := exists_segment kept free firm h.request
    (fun dst q' hcalls => finishes_serve descends kept free firm
      (kept.calls _ _ dst q' h.request hcalls)) h.within states
  obtain ⟨s'', r, states'', hanswer, hrest⟩ := hfinishes s' before stack after finished states'
  exact ⟨s'', r, states'', hanswer, .head (.segment hsegment) hrest⟩

/-- A thread can be run to its end, with a reply to its request. -/
theorem finishes_thread {stack : List (Frame N σ A Q R T)} (stacked : Stacked stack)
    (within : ∀ f ∈ stack, FrameWithin table f) {s : Shared N σ Q}
    (states : ∀ m, table.reads m (s.state m)) (before after finished) :
    ∃ s' x, (∀ m, table.reads m (s'.state m)) ∧ outermost stack = some (x.1, x.2.1) ∧
      GoesOn apply serve ok ⟨s, before ++ stack :: after, finished⟩
        ⟨s', before ++ after, x :: finished⟩ := by
  obtain ⟨f, rest, rfl⟩ := List.exists_cons_of_ne_nil stacked.running
  induction rest generalizing f s with
  | nil =>
    obtain ⟨s', r, states', _, hgoes⟩ := finishes_frame descends kept free firm
      (within f List.mem_cons_self) s before [] after finished states
    exact ⟨s', (f.node, f.request, r), states', rfl, hgoes.tail (.finish before rfl)⟩
  | cons g rest ih =>
    rw [List.forall_mem_cons, List.forall_mem_cons] at within
    obtain ⟨s', r, states', hanswer, hgoes⟩ := finishes_frame descends kept free firm within.1 s
      before (g :: rest) after finished states
    obtain ⟨⟨k, hcall⟩, _⟩ := List.isChain_cons_cons.mp stacked.waiting
    have resumed : FrameWithin table { g with prog := k (some r) } :=
      (within.2.1.call hcall).2 (some r) fun a ha => Option.some.inj ha ▸ hanswer
    obtain ⟨s'', x, states'', hx, hrest⟩ := ih states' { g with prog := k (some r) }
      (stacked.tail.moved _) (by rw [List.forall_mem_cons]; exact ⟨resumed, within.2.2⟩)
    rw [outermost_moved] at hx
    refine ⟨s'', x, states'', ?_, (hgoes.tail (.reply hcall rfl)).trans hrest⟩
    rwa [outermost, List.getLast?_cons_cons]

/-- If no handler crashes, whatever is going on can be brought to an end, each request with
its reply. -/
theorem can_complete (h : ConfigWithin table c) (stacked : ∀ stack ∈ c.threads, Stacked stack) :
    ∃ c' answered, GoesOn apply serve ok c c' ∧ c'.threads = [] ∧
      c'.finished = answered ++ c.finished ∧
      c.threads.reverse.map outermost = answered.map fun x => some (x.1, x.2.1) := by
  obtain ⟨s, threads, finished⟩ := c
  have states := h.states
  have frames := h.frames
  clear h
  induction threads generalizing s finished with
  | nil => exact ⟨_, [], .refl, rfl, rfl, rfl⟩
  | cons stack threads ih =>
    rw [List.forall_mem_cons] at frames stacked
    obtain ⟨s', x, states', hx, hgoes⟩ := finishes_thread descends kept free firm stacked.1
      frames.1 states [] threads finished
    obtain ⟨c', answered, hrest, hthreads, hfinished, hanswered⟩ :=
      ih s' (x :: finished) stacked.2 states' frames.2
    refine ⟨c', answered ++ [x], hgoes.trans hrest, hthreads, ?_, ?_⟩
    · rw [hfinished, List.append_assoc, List.singleton_append]
    · rw [List.reverse_cons, List.map_append, List.map_append, hanswered, List.map_singleton,
        List.map_singleton, hx]

end Completion

end CallRanks
