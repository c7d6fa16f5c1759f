import DynamoStore.Lib.CallRanks

/-!
# Sharper contracts

A contract becomes sharper by what the effects of the handlers keep anyway, and, from some
point of a run on, by what holds at that point and stays. The requests that come after the
point keep the sharper contract. Those that were open then may have seen the states before
it, so they keep the old one only, and there are no more of them than were open.
-/

namespace SharperContracts

open RpcPrograms RpcInterleaving Effects CallRanks
open Contract (Stable)

variable {N σ A Q R T α : Type}

section Definitions

variable (C : Contract N σ Q R)

/-- The contract, and a table of effects beside it. -/
def inside (table : Table N σ A Q R) : Contract N σ Q R where
  inv s := C.inv s ∧ ∀ n, table.reads n (s.state n)
  evolves := C.evolves
  pre n q s := C.pre n q s ∧ table.requests n q
  post n q r s := C.post n q r s ∧ table.answers n q r
  refl := C.refl
  trans := C.trans
  pre_stable hevo h := ⟨C.pre_stable hevo h.1, h.2⟩
  post_stable hevo h := ⟨C.post_stable hevo h.1, h.2⟩

/-- The contract where the fact `J` holds too, with more to say about the replies. -/
def since (J : Shared N σ Q → Prop) (extra : N → Q → R → Prop) : Contract N σ Q R where
  inv s := C.inv s ∧ J s
  evolves := C.evolves
  pre := C.pre
  post n q r s := C.post n q r s ∧ extra n q r
  refl := C.refl
  trans := C.trans
  pre_stable := C.pre_stable
  post_stable hevo h := ⟨C.post_stable hevo h.1, h.2⟩

/-- Contract `D` is `C` where `J` holds, which stays. -/
structure Sharpens (D C : Contract N σ Q R) (J : Shared N σ Q → Prop) : Prop where
  inv : ∀ s, D.inv s ↔ C.inv s ∧ J s
  evolves : D.evolves = C.evolves
  pre : D.pre = C.pre
  post : ∀ {n q r s}, D.post n q r s → C.post n q r s
  stable : C.Stable J

end Definitions

variable {C D : Contract N σ Q R} {table : Table N σ A Q R} {J : Shared N σ Q → Prop}

theorem sharpens_inside {extra : N → Q → R → Prop} (stable : C.Stable J) :
    Sharpens (inside (since C J extra) table) (inside C table) J where
  inv _ := and_right_comm
  evolves := rfl
  pre := rfl
  post h := ⟨h.1.1, h.2⟩
  stable := stable

variable [DecidableEq N] {apply : A → σ → σ}
variable {serve : N → Q → Prog N σ A Q R T R} {allowed : N → Q → Prop}
variable {ok : N → Q → A → σ → Prop}

/-- A program that keeps a contract and has its effects within a table does both at once. -/
theorem wp_inside (kept : Kept table apply serve ok) {n : N} {q : Q} (request : table.requests n q)
    {p : Prog N σ A Q R T α} {Φ : α → Shared N σ Q → Prop} {Ψ : α → Prop} {s : Shared N σ Q}
    (states : ∀ m, table.reads m (s.state m)) (hp : C.wp apply (ok n q) n p Φ s)
    (within : Within (table.limits n q) p Ψ) :
    (inside C table).wp apply (ok n q) n p (fun a s' => Φ a s' ∧ Ψ a) s := by
  induction p generalizing s with
  | ret a => exact ⟨hp, within⟩
  | get k ih => exact ih _ states hp (within _ (states n))
  | act a k ih =>
    intro hok
    obtain ⟨hinv, hevo, hk⟩ := hp hok
    have states' : ∀ m, table.reads m ((s.modify n (apply a)).state m) := by
      intro m
      by_cases hm : m = n
      · rw [hm, s.modify_self]
        exact kept.acts n q a _ request within.1 hok (states n)
      · rw [s.modify_of_ne n _ hm]
        exact states m
    exact ⟨⟨hinv, states'⟩, hevo, ih states' hk within.2⟩
  | now k ih => exact fun t => ih t states (hp t) (within t)
  | order l k ih => exact fun l' hl => ih l' states (hp l' hl) (within l' hl)
  | call dst q' k ih =>
    refine ⟨⟨hp.1, kept.calls n q dst q' request within.1⟩, fun s' r hevo hinv hpost => ?_⟩
    exact ih r hinv.2 (hp.2 s' r hevo hinv.1 fun a ha => (hpost a ha).1)
      (within.2 r fun a ha => (hpost a ha).2)
  | crash => trivial

/-- The bodies are only looked at in states of the kind, and for requests of the kind. -/
theorem verified_inside (kept : Kept table apply serve ok)
    (issued : ∀ n q, allowed n q → table.requests n q)
    (issue : ∀ s n q, C.inv s → allowed n q →
      C.inv (s.issue n q) ∧ C.evolves s (s.issue n q) ∧ C.pre n q (s.issue n q))
    (body : ∀ s n q, C.inv s → C.pre n q s → table.requests n q → table.reads n (s.state n) →
      C.wp apply (ok n q) n (serve n q) (C.post n q) s) :
    Verified (inside C table) apply serve allowed ok where
  issue s n q hinv hallowed := by
    obtain ⟨hinv', hevo, hpre⟩ := issue s n q hinv.1 hallowed
    exact ⟨⟨hinv', hinv.2⟩, hevo, hpre, issued n q hallowed⟩
  body s n q hinv hpre :=
    wp_inside kept hpre.2 hinv.2 (body s n q hinv.1 hpre.1 hpre.2 (hinv.2 n))
      (kept.serve n q hpre.2)

/-- Where `J` holds, programs go on as before, and `J` still holds at the end. -/
theorem wp_since {extra : N → Q → R → Prop} (stable : C.Stable J) {ok : A → σ → Prop} {n : N}
    {p : Prog N σ A Q R T α} {Φ : α → Shared N σ Q → Prop} {s : Shared N σ Q} (hJ : J s)
    (hp : C.wp apply ok n p Φ s) :
    (since C J extra).wp apply ok n p (fun a s' => Φ a s' ∧ J s') s := by
  induction p generalizing s with
  | ret a => exact ⟨hp, hJ⟩
  | get k ih => exact ih _ hJ hp
  | act a k ih =>
    intro hok
    obtain ⟨hinv, hevo, hk⟩ := hp hok
    have hJ' := stable hevo hJ
    exact ⟨⟨hinv, hJ'⟩, hevo, ih hJ' hk⟩
  | now k ih => exact fun t => ih t hJ (hp t)
  | order l k ih => exact fun l' hl => ih l' hJ (hp l' hl)
  | call dst q k ih =>
    exact ⟨hp.1, fun s' r hevo hinv hpost =>
      ih r hinv.2 (hp.2 s' r hevo hinv.1 fun a ha => (hpost a ha).1)⟩
  | crash => trivial

section Late

variable (C D apply ok) in
/-- A thread: the frames that came since a point of the run, above those that were there. -/
structure Parted (s : Shared N σ Q) (p : List (Frame N σ A Q R T) × List (Frame N σ A Q R T)) :
    Prop where
  newer : ∀ f ∈ p.1, FrameOk D apply ok s f
  older : ∀ f ∈ p.2, FrameOk C apply ok s f

variable (C D apply ok) in
/-- How a run has gone on from `c₀`: the `early` replies are to requests that were open then,
the `late` ones to requests that came since. -/
structure Later (c₀ c : Config N σ A Q R T)
    (parts : List (List (Frame N σ A Q R T) × List (Frame N σ A Q R T)))
    (early late : List (N × Q × R)) : Prop where
  inv : D.inv c.shared
  threads : c.threads = parts.map fun p => p.1 ++ p.2
  parted : ∀ p ∈ parts, Parted C D apply ok c.shared p
  finished : ∃ new, c.finished = new ++ c₀.finished ∧ new.Perm (early ++ late)
  opened : (early.map (fun x => (x.1, x.2.1)) ++ parts.filterMap fun p => outermost p.2).Perm
    (c₀.threads.filterMap outermost)
  late : ∀ x ∈ late, D.post x.1 x.2.1 x.2.2 c.shared

variable {s s' : Shared N σ Q} {c c₀ c' : Config N σ A Q R T} {f : Frame N σ A Q R T}
variable {p : List (Frame N σ A Q R T) × List (Frame N σ A Q R T)}
variable {stack stack' : List (Frame N σ A Q R T)}
variable {parts : List (List (Frame N σ A Q R T) × List (Frame N σ A Q R T))}
variable {early late : List (N × Q × R)} (sharpens : Sharpens D C J)

include sharpens

theorem Sharpens.frameOk_later (hevo : C.evolves s s') (h : FrameOk D apply ok s f) :
    FrameOk D apply ok s' f :=
  h.later (by rwa [sharpens.evolves])

theorem Parted.later (hevo : C.evolves s s') (h : Parted C D apply ok s p) :
    Parted C D apply ok s' p :=
  ⟨fun f hf => sharpens.frameOk_later hevo (h.newer f hf), fun f hf => (h.older f hf).later hevo⟩

/-- The running frame goes on, as a newer or an older one. -/
theorem Parted.moved {prog : Prog N σ A Q R T R} (hp : p.1 ++ p.2 = f :: stack)
    (h : Parted C D apply ok s p) (hevo : C.evolves s s')
    (newer : FrameOk D apply ok s f → FrameOk D apply ok s' { f with prog := prog })
    (older : FrameOk C apply ok s f → FrameOk C apply ok s' { f with prog := prog }) :
    ∃ p', p'.1 ++ p'.2 = { f with prog := prog } :: stack ∧ outermost p'.2 = outermost p.2 ∧
      Parted C D apply ok s' p' := by
  have hlater := h.later sharpens hevo
  rcases List.append_eq_cons_iff.mp hp with ⟨_, hold⟩ | ⟨rest, hnew, hstack⟩
  · refine ⟨([], { f with prog := prog } :: stack), rfl, ?_, by simp, ?_⟩
    · rw [hold]
      exact outermost_moved f prog stack
    · have hmem : f ∈ p.2 := hold ▸ List.mem_cons_self
      exact List.forall_mem_cons.mpr ⟨older (h.older f hmem),
        fun g hg => hlater.older g (hold ▸ List.mem_cons_of_mem f hg)⟩
  · refine ⟨({ f with prog := prog } :: rest, p.2), ?_, rfl, ?_, hlater.older⟩
    · rw [hstack]
      rfl
    · have hmem : f ∈ p.1 := hnew ▸ List.mem_cons_self
      exact List.forall_mem_cons.mpr ⟨newer (h.newer f hmem),
        fun g hg => hlater.newer g (hnew ▸ List.mem_cons_of_mem f hg)⟩

theorem inv_and_evolves_of_segment {ok : A → σ → Prop} {n : N} {prog prog' : Prog N σ A Q R T α}
    {Φ Ψ : α → Shared N σ Q → Prop} (hsegment : Segment apply ok n prog s prog' s')
    (hinv : D.inv s) (hprog : D.wp apply ok n prog Φ s ∨ C.wp apply ok n prog Ψ s) :
    D.inv s' ∧ C.evolves s s' := by
  rcases hprog with hprog | hprog
  · obtain ⟨hinv', hevo, _⟩ := D.wp_segment hsegment hinv hprog
    rw [sharpens.evolves] at hevo
    exact ⟨hinv', hevo⟩
  · obtain ⟨hinv', hevo, _⟩ := C.wp_segment hsegment ((sharpens.inv s).mp hinv).1 hprog
    exact ⟨(sharpens.inv s').mpr ⟨hinv', sharpens.stable hevo ((sharpens.inv s).mp hinv).2⟩, hevo⟩

omit [DecidableEq N] sharpens in
/-- Threads that came since are about no request that was open. -/
theorem opened_of_fresh (fresh : List (List (Frame N σ A Q R T))) :
    ((fresh.map fun stack => (stack, ([] : List (Frame N σ A Q R T)))).filterMap
      fun p => outermost p.2) = [] := by
  rw [List.filterMap_map]
  exact List.filterMap_eq_nil_iff.mpr fun _ _ => rfl

/-- One thread goes on, and threads that came since are beside it. -/
theorem Later.replace {before after : List (List (Frame N σ A Q R T))}
    {finished : List (N × Q × R)} (fresh : List (List (Frame N σ A Q R T)))
    (h : Later C D apply ok c₀ ⟨s, before ++ stack :: after, finished⟩ parts early late)
    (hinv : D.inv s') (hevo : C.evolves s s')
    (hfresh : ∀ stack ∈ fresh, ∀ f ∈ stack, FrameOk D apply ok s' f)
    (moved : ∀ p, p.1 ++ p.2 = stack → Parted C D apply ok s p → ∃ p', p'.1 ++ p'.2 = stack' ∧
      outermost p'.2 = outermost p.2 ∧ Parted C D apply ok s' p') :
    ∃ parts', Later C D apply ok c₀ ⟨s', before ++ (fresh ++ stack' :: after), finished⟩
      parts' early late := by
  obtain ⟨pb, rest, rfl, hbefore, hrest⟩ := List.map_eq_append_iff.mp h.threads.symm
  obtain ⟨p, pa, rfl, hstack, hafter⟩ := List.map_eq_cons_iff.mp hrest
  have hparted := h.parted
  have hopened := h.opened
  simp only [List.forall_mem_append, List.forall_mem_cons] at hparted
  obtain ⟨p', hstack', hsame, hp'⟩ := moved p hstack hparted.2.1
  refine ⟨pb ++ (fresh.map (fun stack => (stack, [])) ++ p' :: pa), hinv, ?_, ?_, h.finished, ?_,
    fun x hx => D.post_stable (by rwa [sharpens.evolves]) (h.late x hx)⟩
  · simp [← hbefore, ← hstack', ← hafter, Function.comp_def]
  · simp only [List.forall_mem_append, List.forall_mem_cons, List.forall_mem_map]
    exact ⟨fun p hp => (hparted.1 p hp).later sharpens hevo,
      fun stack hstack => ⟨hfresh stack hstack, by simp⟩, hp',
      fun p hp => (hparted.2.2 p hp).later sharpens hevo⟩
  · rw [List.filterMap_append, List.filterMap_cons] at hopened
    rwa [List.filterMap_append, List.filterMap_append, opened_of_fresh, List.nil_append,
      List.filterMap_cons, hsame]

variable (verifiedD : Verified D apply serve allowed ok)

omit sharpens in
theorem Parted.running (h : Parted C D apply ok s p) (hp : p.1 ++ p.2 = f :: stack) :
    FrameOk D apply ok s f ∨ FrameOk C apply ok s f := by
  have hmem : f ∈ p.1 ++ p.2 := hp ▸ List.mem_cons_self
  exact (List.mem_append.mp hmem).imp (h.newer f) (h.older f)

theorem Later.segment {before after : List (List (Frame N σ A Q R T))}
    {finished : List (N × Q × R)} {prog : Prog N σ A Q R T R}
    (h : Later C D apply ok c₀ ⟨s, before ++ (f :: stack) :: after, finished⟩ parts early late)
    (hsegment : Segment apply (ok f.node f.request) f.node f.prog s prog s') :
    ∃ parts', Later C D apply ok c₀
      ⟨s', before ++ ({ f with prog := prog } :: stack) :: after, finished⟩ parts' early late := by
  have hinvC := ((sharpens.inv s).mp h.inv).1
  have hmem : f :: stack ∈ parts.map fun p => p.1 ++ p.2 :=
    h.threads ▸ List.mem_append_right before List.mem_cons_self
  obtain ⟨p, hparts, hp⟩ := List.mem_map.mp hmem
  obtain ⟨hinv', hevo⟩ := inv_and_evolves_of_segment sharpens hsegment h.inv
    (((h.parted p hparts).running hp).imp (fun hf => hf _ (D.refl _) h.inv)
      fun hf => hf _ (C.refl _) hinvC)
  refine h.replace sharpens [] hinv' hevo (by simp) fun p hp hparted =>
    hparted.moved sharpens hp hevo (fun hf => ?_) fun hf => ?_
  · obtain ⟨_, _, hprog⟩ := D.wp_segment hsegment h.inv (hf _ (D.refl _) h.inv)
    exact frameOk_boundary hsegment.boundary hprog
  · obtain ⟨_, _, hprog⟩ := C.wp_segment hsegment hinvC (hf _ (C.refl _) hinvC)
    exact frameOk_boundary hsegment.boundary hprog

include verifiedD

/-- A request that is sent since then is served under the sharper contract. -/
theorem Parted.callee {dst : N} {q : Q} {k : Option R → Prog N σ A Q R T R} (hinv : D.inv s)
    (h : Parted C D apply ok s p) (hp : p.1 ++ p.2 = f :: stack) (hcall : f.prog = .call dst q k) :
    FrameOk D apply ok s ⟨dst, q, serve dst q⟩ := by
  refine frameOk_serve verifiedD ?_
  rcases h.running hp with hf | hf
  · exact hf.pre_of_call hinv hcall
  · rw [sharpens.pre]
    exact hf.pre_of_call ((sharpens.inv s).mp hinv).1 hcall

theorem Later.invoke {before after : List (List (Frame N σ A Q R T))}
    {finished : List (N × Q × R)} {dst : N} {q : Q} {k : Option R → Prog N σ A Q R T R}
    (h : Later C D apply ok c₀ ⟨s, before ++ (f :: stack) :: after, finished⟩ parts early late)
    (hcall : f.prog = .call dst q k) :
    ∃ parts', Later C D apply ok c₀
      ⟨s, before ++ (⟨dst, q, serve dst q⟩ :: f :: stack) :: after, finished⟩
      parts' early late := by
  refine h.replace sharpens [] h.inv (C.refl s) (by simp) fun p hp hparted => ?_
  have hcallee := hparted.callee sharpens verifiedD h.inv hp hcall
  refine ⟨(⟨dst, q, serve dst q⟩ :: p.1, p.2), ?_, rfl, ?_, hparted.older⟩
  · rw [← hp]
    rfl
  · exact List.forall_mem_cons.mpr ⟨hcallee, hparted.newer⟩

theorem Later.abandon {before after : List (List (Frame N σ A Q R T))}
    {finished : List (N × Q × R)} {dst : N} {q : Q} {k : Option R → Prog N σ A Q R T R}
    (h : Later C D apply ok c₀ ⟨s, before ++ (f :: stack) :: after, finished⟩ parts early late)
    (hcall : f.prog = .call dst q k) :
    ∃ parts', Later C D apply ok c₀
      ⟨s, before ++ [⟨dst, q, serve dst q⟩] :: ({ f with prog := k none } :: stack) :: after,
        finished⟩ parts' early late := by
  have hmem : f :: stack ∈ parts.map fun p => p.1 ++ p.2 :=
    h.threads ▸ List.mem_append_right before List.mem_cons_self
  obtain ⟨p, hparts, hp⟩ := List.mem_map.mp hmem
  refine h.replace sharpens [[⟨dst, q, serve dst q⟩]] h.inv (C.refl s) ?_
    fun p hp hparted => hparted.moved sharpens hp (C.refl s)
      (fun hf => hf.resume hcall (by simp)) fun hf => hf.resume hcall (by simp)
  rw [List.forall_mem_singleton, List.forall_mem_singleton]
  exact (h.parted p hparts).callee sharpens verifiedD h.inv hp hcall

omit verifiedD in
/-- A newer frame replies with what the sharper contract says, which an older one need not
know. -/
theorem Later.reply {before after : List (List (Frame N σ A Q R T))} {g : Frame N σ A Q R T}
    {finished : List (N × Q × R)} {k : Option R → Prog N σ A Q R T R} {r : R}
    (h : Later C D apply ok c₀ ⟨s, before ++ (g :: f :: stack) :: after, finished⟩ parts early late)
    (hcall : f.prog = .call g.node g.request k) (hret : g.prog = .ret r) :
    ∃ parts', Later C D apply ok c₀
      ⟨s, before ++ ({ f with prog := k (some r) } :: stack) :: after, finished⟩
      parts' early late := by
  have hinvC := ((sharpens.inv s).mp h.inv).1
  refine h.replace sharpens [] h.inv (C.refl s) (by simp) fun p hp hparted => ?_
  have hpost : C.post g.node g.request r s := by
    rcases hparted.running hp with hg | hg
    · exact sharpens.post (hg.post_of_ret h.inv hret)
    · exact hg.post_of_ret hinvC hret
  have older : FrameOk C apply ok s f → FrameOk C apply ok s { f with prog := k (some r) } :=
    fun hf => hf.resume hcall fun a ha => Option.some.inj ha ▸ hpost
  rcases List.append_eq_cons_iff.mp hp with ⟨_, hold⟩ | ⟨rest, hnew, hrest⟩
  · -- both were there
    have hall := hold ▸ hparted.older
    rw [List.forall_mem_cons, List.forall_mem_cons] at hall
    refine ⟨([], { f with prog := k (some r) } :: stack), rfl, ?_, by simp,
      List.forall_mem_cons.mpr ⟨older hall.2.1, hall.2.2⟩⟩
    rw [hold, outermost_moved]
    simp [outermost]
  · have hg : FrameOk D apply ok s g := hparted.newer g (hnew ▸ List.mem_cons_self)
    have hrestOk : Parted C D apply ok s (rest, p.2) :=
      ⟨fun f' hf' => hparted.newer f' (hnew ▸ List.mem_cons_of_mem g hf'), hparted.older⟩
    exact Parted.moved (p := (rest, p.2)) sharpens hrest.symm hrestOk (C.refl s)
      (fun hf => hf.resume hcall fun a ha => Option.some.inj ha ▸ hg.post_of_ret h.inv hret) older

theorem Later.step (h : Later C D apply ok c₀ c parts early late)
    (hstep : Step apply serve allowed ok c c') :
    ∃ parts' early' late', Later C D apply ok c₀ c' parts' early' late' := by
  have hinvC := ((sharpens.inv _).mp h.inv).1
  cases hstep with
  | @issue s threads finished n q hallowed =>
    obtain ⟨hinv, hevo, hpre⟩ := verifiedD.issue _ n q h.inv hallowed
    rw [sharpens.evolves] at hevo
    refine ⟨([⟨n, q, serve n q⟩], []) :: parts, early, late, hinv, ?_, ?_, h.finished, h.opened,
      fun x hx => D.post_stable (by rwa [sharpens.evolves]) (h.late x hx)⟩
    · rw [List.map_cons, ← h.threads]
      rfl
    · rw [List.forall_mem_cons]
      refine ⟨⟨?_, by simp⟩, fun p hp => (h.parted p hp).later sharpens hevo⟩
      exact List.forall_mem_singleton.mpr (frameOk_serve verifiedD hpre)
  | segment hsegment =>
    obtain ⟨parts', h'⟩ := h.segment sharpens hsegment
    exact ⟨parts', early, late, h'⟩
  | invoke hcall =>
    obtain ⟨parts', h'⟩ := h.invoke sharpens verifiedD hcall
    exact ⟨parts', early, late, h'⟩
  | reply hcall hret =>
    obtain ⟨parts', h'⟩ := h.reply sharpens hcall hret
    exact ⟨parts', early, late, h'⟩
  | abandon hcall =>
    obtain ⟨parts', h'⟩ := h.abandon sharpens verifiedD hcall
    exact ⟨parts', early, late, h'⟩
  | @finish before s after finished r f hret =>
    obtain ⟨pb, rest, rfl, hbefore, hrest⟩ := List.map_eq_append_iff.mp h.threads.symm
    obtain ⟨p, pa, rfl, hstack, hafter⟩ := List.map_eq_cons_iff.mp hrest
    have hparted := h.parted
    have hopened := h.opened
    obtain ⟨new, hfinished, hnew⟩ := h.finished
    simp only [List.forall_mem_append, List.forall_mem_cons] at hparted
    have hthreads : before ++ after = (pb ++ pa).map fun p => p.1 ++ p.2 := by
      rw [List.map_append, hbefore, hafter]
    have hrestParted : ∀ p ∈ pb ++ pa, Parted C D apply ok s p :=
      List.forall_mem_append.mpr ⟨hparted.1, hparted.2.2⟩
    have hfinished' : (f.node, f.request, r) :: finished =
        ((f.node, f.request, r) :: new) ++ c₀.finished := by
      rw [List.cons_append, ← hfinished]
    rcases List.append_eq_singleton_iff.mp hstack with ⟨_, hold⟩ | ⟨hsince, hold⟩
    · -- the request was open
      refine ⟨pb ++ pa, (f.node, f.request, r) :: early, late, h.inv, hthreads, hrestParted,
        ⟨_, hfinished', hnew.cons _⟩, ?_, h.late⟩
      have hopen : outermost p.2 = some (f.node, f.request) := by
        rw [hold]
        rfl
      rw [List.filterMap_append, List.filterMap_cons, hopen] at hopened
      rw [List.filterMap_append]
      refine List.Perm.trans ?_ hopened
      rw [List.map_cons, List.cons_append, ← List.append_assoc, ← List.append_assoc]
      exact List.perm_middle.symm
    · -- the request came since
      refine ⟨pb ++ pa, early, (f.node, f.request, r) :: late, h.inv, hthreads, hrestParted,
        ⟨_, hfinished', (hnew.cons _).trans List.perm_middle.symm⟩, ?_, ?_⟩
      · rw [List.filterMap_append, List.filterMap_cons, hold] at hopened
        rwa [List.filterMap_append]
      · refine List.forall_mem_cons.mpr ⟨?_, h.late⟩
        have hf := hparted.2.1.newer f (hsince ▸ List.mem_singleton_self f)
        exact hf.post_of_ret h.inv hret

/-- The replies after a point of the run at which `J` holds: those to requests that were open
then, and others, for which the sharper contract holds. -/
theorem replies_since (hc : ConfigOk C apply ok c₀) (hJ : J c₀.shared)
    (hreach : Reach apply serve allowed ok c₀ c) :
    D.inv c.shared ∧ ∃ new early late, c.finished = new ++ c₀.finished ∧ new.Perm (early ++ late) ∧
      (early.map fun x => (x.1, x.2.1)).Subperm (c₀.threads.filterMap outermost) ∧
      ∀ x ∈ late, D.post x.1 x.2.1 x.2.2 c.shared := by
  have start : Later C D apply ok c₀ c₀ (c₀.threads.map fun stack => ([], stack)) [] [] := by
    refine ⟨(sharpens.inv _).mpr ⟨hc.inv, hJ⟩, ?_, ?_, ⟨[], rfl, .refl _⟩, ?_, by simp⟩
    · simp [Function.comp_def]
    · rw [List.forall_mem_map]
      exact fun stack hstack => ⟨by simp, hc.frames stack hstack⟩
    · simp [List.filterMap_map]
  have later : ∃ parts early late, Later C D apply ok c₀ c parts early late := by
    induction hreach with
    | refl => exact ⟨_, _, _, start⟩
    | tail _ hstep ih =>
      obtain ⟨parts, early, late, h⟩ := ih
      exact h.step sharpens verifiedD hstep
  obtain ⟨parts, early, late, h⟩ := later
  obtain ⟨new, hfinished, hnew⟩ := h.finished
  refine ⟨h.inv, new, early, late, hfinished, hnew, ?_, h.late⟩
  exact (List.sublist_append_left _ _).subperm.trans h.opened.subperm

end Late

end SharperContracts
