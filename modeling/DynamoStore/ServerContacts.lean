import DynamoStore.KeyValueStoreClient
import DynamoStore.Lib.AnsweredRuns

/-!
# Which servers a client contacts

The address given to the constructor is used without a look at the config file, and the
table from which `Put` picks another server is never filled. What the nodes answer only
adds stubs: once the first call has found its stub, the assigned coordinator keeps one.

A use of a null stub, or of the end of the empty table, is a crash of the program.
-/

namespace ServerContacts

open RpcPrograms KeyValueStoreClient GossipNode CallAssertions AnsweredRuns

/-- One call of the client's user, with what the user and the random generator give it. -/
inductive Call where
  | get (key : String) (attempts : Nat) (selections : List Int)
  | put (key value : String) (retry : Bool) (attempts : Nat) (inputs : Nat → RoundInput)
    (rounds : Nat)

/-- A call is true at its end, and false while it is in a loop. -/
def Call.code : Call → Code Bool
  | .get key attempts selections => do
    let done ← KeyValueStoreClient.get key attempts selections
    return done.isSome
  | .put key value retry attempts inputs rounds => do
    let done ← KeyValueStoreClient.put key value retry attempts inputs rounds
    return done.isSome

/-- The calls one after the other. -/
def session : List Call → Code Bool
  | [] => return true
  | call :: calls => do
    let returned ← call.code
    if returned then session calls else return false

/-- `stubs_[assigned_coordinator]->`, for some RPC. -/
def contact (q : KeyValueStoreClient → Request) : Code (Option Reply) := do
  let client ← Prog.read
  if client.assignedCoordinator ∈ client.stubs then
    Prog.send client.assignedCoordinator (q client)
  else Prog.crash

/-- Every RPC of the run goes through a stub, and every server that is picked is listed. -/
structure RealServers (nodesConfig : Option (List Char)) (p : Code Bool)
    (client : KeyValueStoreClient) (answers : List (Option Reply)) : Prop where
  stub : ∀ q k client' rest, Comes change p client answers ((contact q).bind k) client' rest →
    client'.assignedCoordinator ∈ client'.stubs
  picked : ∀ drawn k client' rest,
    Comes change p client answers ((randomPickServer drawn).bind k) client' rest →
      ∃ server ∈ getNodesConfig nodesConfig, randomPickServer drawn = pure server

def IsGetReply (r : Option Reply) : Prop :=
  ∃ getResData coordinator, r = some (.clientGet getResData coordinator)

def HasStub (client : KeyValueStoreClient) : Prop :=
  client.assignedCoordinator ∈ client.stubs

theorem randomPickServer_eq (drawn : Nat) : randomPickServer drawn = .crash := rfl

variable {nodesConfig : Option (List Char)} {client client' : KeyValueStoreClient}
variable {answers rest : List (Option Reply)} {key value : String} {attempts : Nat}

/-- What begins with an RPC crashes at once without the stub. -/
theorem crashes_of_missing {α : Type} (missing : ¬ HasStub client)
    (p : KeyValueStoreClient → Code α) :
    Crashes change ((Prog.read : Code KeyValueStoreClient).bind fun client =>
      if client.assignedCoordinator ∈ client.stubs then p client else Prog.crash)
      client answers := by
  refine ⟨client, answers, .get ?_⟩
  have missing' : ¬ client.assignedCoordinator ∈ client.stubs := missing
  simp only [Prog.bind, if_neg missing']
  exact .here _ _ _

theorem crashes_contact {α : Type} (h : ¬ HasStub client) (q : KeyValueStoreClient → Request)
    (k : Option Reply → Code α) : Crashes change ((contact q).bind k) client answers :=
  crashes_bind_iff.mpr (Or.inl (crashes_of_missing h _))

/-- There are real servers throughout exactly if nothing crashes. -/
theorem realServers_iff {p : Code Bool} :
    RealServers nodesConfig p client answers ↔ ¬ Crashes change p client answers := by
  constructor
  · rintro real ⟨client', rest, h⟩
    obtain ⟨server, _, hpicked⟩ := real.picked 0 (fun _ => pure true) client' rest h
    rw [randomPickServer_eq] at hpicked
    cases hpicked
  · intro alive
    constructor
    · intro q k client' rest h
      by_contra hstub
      have crashes : Crashes change ((contact q).bind k) client' rest := crashes_contact hstub q k
      obtain ⟨client'', rest', hcrash⟩ := crashes
      exact alive ⟨client'', rest', h.trans hcrash⟩
    · intro drawn k client' rest h
      exact absurd ⟨client', rest, h⟩ alive

section Stubs

/-- The terms of the client's programs: no answer makes them crash. -/
abbrev StubKept {α : Type} (P : KeyValueStoreClient → Prop) (p : Code α) : Prop :=
  Keeps change undisturbed P p fun _ => HasStub

theorem StubKept.hasStub {α : Type} {p : Code α} {a : α} (h : StubKept HasStub p)
    (hs : HasStub client) (hreturns : Returns change p client answers a client' rest) :
    HasStub client' :=
  post_of_keeps (Φ := fun _ => HasStub) h hs hreturns

theorem StubKept.not_crashes {α : Type} {p : Code α} (h : StubKept HasStub p)
    (hs : HasStub client) : ¬ Crashes change p client answers :=
  not_crashes_of_keeps h hs

theorem stubKept_updateChannel (coordinator : String) :
    StubKept (fun _ => True) (updateChannelToCoordinator coordinator) := by
  refine Keeps.bind Keeps.read fun client => ?_
  split
  · refine Keeps.bind (Φ := fun _ s => coordinator ∈ s.stubs) (Keeps.perform fun s _ _ => ?_)
      fun _ => Keeps.perform fun s hs _ => hs
    exact (AList.mem_insert _).mpr (Or.inl rfl)
  · rename_i hmem
    refine Keeps.perform fun s hs _ => ?_
    obtain ⟨_, rfl⟩ := hs
    exact not_not.mp hmem

theorem stubKept_perform_put (value : String) (version : Version) :
    StubKept HasStub (Prog.perform (.put key value version) : Code Unit) :=
  Keeps.perform fun _ hs _ => hs

theorem stubKept_send (dst : String) (q : Request) :
    Keeps change undisturbed HasStub (Prog.send dst q : Code (Option Reply)) fun _ => HasStub :=
  Keeps.send (fun _ _ => trivial) fun _ _ _ hs same => same ▸ hs

/-- After the read that precedes an RPC, the stub is there. -/
theorem keeps_contact {α : Type} {p : KeyValueStoreClient → Code α}
    {Φ : α → KeyValueStoreClient → Prop}
    (hp : ∀ client, Keeps change undisturbed HasStub (p client) Φ) :
    Keeps change undisturbed HasStub (do
      let client ← Prog.read
      if client.assignedCoordinator ∈ client.stubs then p client else Prog.crash) Φ := by
  refine Keeps.bind Keeps.read fun client => ?_
  split
  · exact (hp client).strengthen fun s hs => hs.1
  · rename_i missing
    refine Keeps.crash fun s hs => ?_
    obtain ⟨hs, rfl⟩ := hs
    exact missing hs

theorem stubKept_putRetry (key value : String) (attempts : Nat) :
    StubKept HasStub (putRetry key value attempts) := by
  induction attempts with
  | zero => exact Keeps.ret fun _ hs => hs
  | succ attempts ih =>
    refine keeps_contact fun client => Keeps.bind (stubKept_send _ _) fun r => ?_
    split
    · refine Keeps.bind Keeps.read fun client => ?_
      refine Keeps.bind (Φ := fun _ => HasStub) (Keeps.perform fun s hs _ => hs.1) fun _ => ?_
      exact Keeps.ret fun _ hs => hs
    · exact Keeps.ret fun _ hs => hs
    · exact Keeps.bind ((stubKept_updateChannel _).strengthen fun _ _ => trivial) fun _ => ih
    · exact Keeps.ret fun _ hs => hs
    · exact Keeps.ret fun _ hs => hs

theorem stubKept_reconcile (key : String) (attempts : Nat) (selections : List Int)
    (conflictVersions : List Data) :
    StubKept HasStub (reconcile key attempts selections conflictVersions) := by
  unfold reconcile
  split
  · exact Keeps.ret fun _ hs => hs
  · exact Keeps.bind (stubKept_perform_put _ _) fun _ => Keeps.ret fun _ hs => hs
  · refine Keeps.bind (Keeps.iterate _) fun servers => ?_
    split
    · exact Keeps.ret fun _ hs => hs.1
    · refine Keeps.bind ((stubKept_perform_put _ _).strengthen fun _ hs => hs.1) fun _ => ?_
      refine Keeps.bind (stubKept_putRetry _ _ _) fun done => ?_
      split
      · exact Keeps.ret fun _ hs => hs
      · exact Keeps.ret fun _ hs => hs

theorem stubKept_get (key : String) (attempts : Nat) (selections : List Int) :
    StubKept HasStub (KeyValueStoreClient.get key attempts selections) := by
  refine keeps_contact fun client => Keeps.bind (stubKept_send _ _) fun r => ?_
  split
  · refine Keeps.bind ((stubKept_updateChannel _).strengthen fun _ _ => trivial) fun _ => ?_
    refine Keeps.bind (stubKept_reconcile _ _ _ _) fun result => ?_
    split
    · exact Keeps.ret fun _ hs => hs
    · exact Keeps.ret fun _ hs => hs
  · exact Keeps.ret fun _ hs => hs

end Stubs

section Calls

/-- A put that reads before it writes. -/
def Call.ReadsFirst (call : Call) : Prop :=
  ∃ key value attempts inputs rounds, call = .put key value false attempts inputs rounds

/-- A read fails exactly if its RPC is not answered with data. -/
theorem returns_failed_iff (hs : HasStub client) {selections : List Int} :
    Returns change (KeyValueStoreClient.get key attempts selections) client answers
        (some .failed) client' rest ↔
      client' = client ∧ ∃ r, answers = r :: rest ∧ ¬ IsGetReply r := by
  have there : client.assignedCoordinator ∈ client.stubs := hs
  rw [KeyValueStoreClient.get, Prog.bind_eq, returns_bind_iff]
  simp only [returns_read_iff]
  constructor
  · rintro ⟨_, _, _, ⟨rfl, rfl, rfl⟩, h⟩
    rw [if_pos there, Prog.bind_eq, returns_bind_iff] at h
    obtain ⟨r, _, _, hsend, h⟩ := h
    obtain ⟨rfl, rfl⟩ := returns_send_iff.mp hsend
    split at h
    · -- a read that is answered does not fail
      obtain ⟨_, _, _, _, h⟩ := returns_bind_iff.mp h
      obtain ⟨result, _, _, _, h⟩ := returns_bind_iff.mp h
      cases result with
      | none => cases h
      | some result => cases h
    · rename_i hother
      obtain ⟨_, rfl, rfl⟩ := returns_ret_iff.mp h
      refine ⟨rfl, r, rfl, ?_⟩
      rintro ⟨getResData, coordinator, rfl⟩
      exact hother getResData coordinator rfl
  · rintro ⟨rfl, r, rfl, hnot⟩
    refine ⟨_, _, _, ⟨rfl, rfl, rfl⟩, ?_⟩
    rw [if_pos there, Prog.bind_eq, returns_bind_iff]
    refine ⟨r, _, rest, returns_send_iff.mpr ⟨rfl, rfl⟩, ?_⟩
    split
    · rename_i getResData coordinator
      exact absurd ⟨getResData, coordinator, rfl⟩ hnot
    · exact .here _ _ _

theorem crashes_getUntilSuccess_iff (hs : HasStub client) {inputs : Nat → RoundInput}
    {rounds : Nat} :
    Crashes change (getUntilSuccess key attempts inputs (rounds + 1)) client answers ↔
      ∃ r rest, answers = r :: rest ∧ ¬ IsGetReply r := by
  rw [getUntilSuccess, Prog.bind_eq, crashes_bind_iff,
    or_iff_right ((stubKept_get _ _ _).not_crashes hs)]
  constructor
  · rintro ⟨done, client', rest, hget, hcrash⟩
    rcases done with _ | _ | result
    · exact absurd hcrash (not_crashes_ret _)
    · obtain ⟨_, r, hr, hnot⟩ := (returns_failed_iff hs).mp hget
      exact ⟨r, rest, hr, hnot⟩
    · exact absurd hcrash (not_crashes_ret _)
  · rintro ⟨r, rest, rfl, hnot⟩
    refine ⟨some .failed, client, rest, (returns_failed_iff hs).mpr ⟨rfl, r, rfl, hnot⟩, ?_⟩
    exact ⟨client, rest, .here _ _ _⟩

theorem hasStub_of_getUntilSuccess (hs : HasStub client) {inputs : Nat → RoundInput}
    {rounds : Nat} {done : Option Unit}
    (h : Returns change (getUntilSuccess key attempts inputs (rounds + 1)) client answers done
      client' rest) : HasStub client' := by
  rw [getUntilSuccess, Prog.bind_eq, returns_bind_iff] at h
  obtain ⟨result, client₁, rest₁, hget, h⟩ := h
  have hs₁ := (stubKept_get _ _ _).hasStub hs hget
  rcases result with _ | _ | result
  · obtain ⟨_, rfl, _⟩ := returns_ret_iff.mp h
    exact hs₁
  · cases h
  · obtain ⟨_, rfl, _⟩ := returns_ret_iff.mp h
    exact hs₁

theorem call_code_get (selections : List Int) : (Call.get key attempts selections).code =
    (KeyValueStoreClient.get key attempts selections).bind fun done => .ret done.isSome := rfl

theorem call_code_put (retry : Bool) (inputs : Nat → RoundInput) (rounds : Nat) :
    (Call.put key value retry attempts inputs rounds).code =
      (KeyValueStoreClient.put key value retry attempts inputs rounds).bind
        fun done => .ret done.isSome := rfl

theorem put_first (inputs : Nat → RoundInput) (rounds : Nat) :
    KeyValueStoreClient.put key value false attempts inputs rounds =
      (getUntilSuccess key attempts inputs (rounds + 1)).bind fun done =>
        match done with
        | none => .ret none
        | some _ => putRetry key value (attempts + 1) := rfl

/-- With its stub there, a call crashes exactly if it is a put whose read fails. -/
theorem crashes_call_iff (hs : HasStub client) (call : Call) :
    Crashes change call.code client answers ↔
      call.ReadsFirst ∧ ∃ r rest, answers = r :: rest ∧ ¬ IsGetReply r := by
  cases call with
  | get key attempts selections =>
    rw [call_code_get, crashes_map_iff]
    refine iff_of_false ((stubKept_get _ _ _).not_crashes hs) ?_
    rintro ⟨⟨_, _, _, _, _, h⟩, _⟩
    cases h
  | put key value retry attempts inputs rounds =>
    rw [call_code_put, crashes_map_iff]
    cases retry with
    | true =>
      refine iff_of_false ((stubKept_putRetry _ _ _).not_crashes hs) ?_
      rintro ⟨⟨_, _, _, _, _, h⟩, _⟩
      cases h
    | false =>
      have read : Crashes change (getUntilSuccess key attempts inputs (rounds + 1)) client answers ↔
        ∃ r rest, answers = r :: rest ∧ ¬ IsGetReply r := crashes_getUntilSuccess_iff hs
      rw [and_iff_right ⟨key, value, attempts, inputs, rounds, rfl⟩, ← read, put_first,
        crashes_bind_iff]
      -- after the read nothing crashes
      refine or_iff_left ?_
      rintro ⟨done, client', rest, hread, hput⟩
      have hs' := hasStub_of_getUntilSuccess hs hread
      cases done with
      | none => exact not_crashes_ret _ hput
      | some _ => exact (stubKept_putRetry _ _ _).not_crashes hs' hput

/-- Without its stub, every call crashes at once. -/
theorem crashes_call_of_missing (missing : ¬ HasStub client) (call : Call) :
    Crashes change call.code client answers := by
  cases call with
  | get key attempts selections =>
    rw [call_code_get, crashes_map_iff]
    exact crashes_of_missing missing _
  | put key value retry attempts inputs rounds =>
    rw [call_code_put, crashes_map_iff]
    cases retry with
    | true => exact crashes_of_missing missing _
    | false =>
      rw [put_first, crashes_bind_iff, getUntilSuccess, Prog.bind_eq, crashes_bind_iff]
      exact Or.inl (Or.inl (crashes_of_missing missing _))

theorem hasStub_of_call (hs : HasStub client) {call : Call} {returned : Bool}
    (h : Returns change call.code client answers returned client' rest) : HasStub client' := by
  cases call with
  | get key attempts selections =>
    rw [call_code_get, returns_map_iff] at h
    obtain ⟨done, hget, _⟩ := h
    exact (stubKept_get _ _ _).hasStub hs hget
  | put key value retry attempts inputs rounds =>
    rw [call_code_put, returns_map_iff] at h
    obtain ⟨done, hput, _⟩ := h
    cases retry with
    | true => exact (stubKept_putRetry _ _ _).hasStub hs hput
    | false =>
      rw [put_first, returns_bind_iff] at hput
      obtain ⟨read, client₂, rest₂, hread, hput⟩ := hput
      have hs₂ := hasStub_of_getUntilSuccess hs hread
      cases read with
      | none =>
        obtain ⟨_, rfl, _⟩ := returns_ret_iff.mp hput
        exact hs₂
      | some _ => exact (stubKept_putRetry _ _ _).hasStub hs₂ hput

/-- A run of calls crashes at a put that reads first, and whose read fails. -/
theorem crashes_session_iff (hs : HasStub client) (calls : List Call) :
    Crashes change (session calls) client answers ↔
      ∃ before call after client' r rest, calls = before ++ call :: after ∧ call.ReadsFirst ∧
        Returns change (session before) client answers true client' (r :: rest) ∧
        ¬ IsGetReply r := by
  induction calls generalizing client answers with
  | nil =>
    refine iff_of_false (not_crashes_ret _) ?_
    rintro ⟨before, call, after, _, _, _, heq, _⟩
    simp at heq
  | cons call calls ih =>
    rw [session, Prog.bind_eq, crashes_bind_iff, crashes_call_iff hs]
    constructor
    · rintro (⟨hreads, r, rest, rfl, hnot⟩ | ⟨returned, client', rest, hcall, hcrash⟩)
      · exact ⟨[], call, calls, client, r, rest, rfl, hreads, .here _ _ _, hnot⟩
      · cases returned with
        | false => exact absurd hcrash (not_crashes_ret _)
        | true =>
          obtain ⟨before, call', after, client'', r, rest', rfl, hreads, hbefore, hnot⟩ :=
            (ih (hasStub_of_call hs hcall)).mp hcrash
          refine ⟨call :: before, call', after, client'', r, rest', rfl, hreads, ?_, hnot⟩
          rw [session, Prog.bind_eq, returns_bind_iff]
          exact ⟨true, client', rest, hcall, hbefore⟩
    · rintro ⟨before, call', after, client', r, rest, heq, hreads, hbefore, hnot⟩
      cases before with
      | nil =>
        obtain ⟨rfl, rfl⟩ := List.cons.inj heq
        obtain ⟨_, rfl, rfl⟩ := returns_ret_iff.mp hbefore
        exact Or.inl ⟨hreads, r, rest, rfl, hnot⟩
      | cons first before =>
        obtain ⟨rfl, rfl⟩ := List.cons.inj heq
        rw [session, Prog.bind_eq, returns_bind_iff] at hbefore
        obtain ⟨returned, client₁, rest₁, hcall, hrest⟩ := hbefore
        cases returned with
        | false => cases hrest
        | true =>
          exact Or.inr ⟨true, client₁, rest₁, hcall, (ih (hasStub_of_call hs hcall)).mpr
            ⟨before, call', after, client', r, rest, rfl, hreads, hrest, hnot⟩⟩

end Calls

theorem hasStub_init_iff {assignedPort : String} :
    HasStub (init nodesConfig assignedPort) ↔ assignedPort ∈ getNodesConfig nodesConfig := by
  simp [HasStub, init, Map.mem_foldl_insert]

/-- A client contacts real servers throughout exactly if the address that it is given is
listed, should it make any call, and the read of each put that reads first succeeds. -/
theorem real_servers_iff (nodesConfig : Option (List Char)) (assignedPort : String)
    (calls : List Call) (answers : List (Option Reply)) :
    RealServers nodesConfig (session calls) (init nodesConfig assignedPort) answers ↔
      (calls ≠ [] → assignedPort ∈ getNodesConfig nodesConfig) ∧
        ∀ before call after, calls = before ++ call :: after → call.ReadsFirst →
          ∀ client r rest, Returns change (session before) (init nodesConfig assignedPort)
            answers true client (r :: rest) → IsGetReply r := by
  rw [realServers_iff]
  by_cases hs : HasStub (init nodesConfig assignedPort)
  · rw [crashes_session_iff hs, and_iff_right fun _ => hasStub_init_iff.mp hs]
    push Not
    constructor
    · exact fun h before call after heq hreads client r rest hbefore =>
        h before call after client r rest heq hreads hbefore
    · exact fun h before call after client r rest heq hreads hbefore =>
        h before call after heq hreads client r rest hbefore
  · cases calls with
    | nil =>
      refine iff_of_true (not_crashes_ret _) ⟨fun h => absurd rfl h, ?_⟩
      intro before call after heq
      simp at heq
    | cons call calls =>
      refine iff_of_false ?_ fun h =>
        hs (hasStub_init_iff.mpr (h.1 (List.cons_ne_nil _ _)))
      rw [not_not, session, Prog.bind_eq, crashes_bind_iff]
      exact Or.inl (crashes_call_of_missing hs call)

section Samples

/-- Node A is the listed server. It is assigned, and does not answer the read of a put; or
node B is assigned, and is to be read. -/
theorem unreal_servers :
    ¬ RealServers (some "A\n".toList) (session [.put "k" "v" false 1 (fun _ => ⟨[], 0⟩) 1])
        (init (some "A\n".toList) "A") [none] ∧
      ¬ RealServers (some "A\n".toList) (session [.get "k" 1 []])
        (init (some "A\n".toList) "B") [] := by
  rw [realServers_iff, realServers_iff, not_not, not_not]
  constructor
  · rw [crashes_session_iff (hasStub_init_iff.mpr (by decide +kernel))]
    refine ⟨[], _, [], _, none, [], rfl, ⟨_, _, _, _, _, rfl⟩, .here _ _ _, ?_⟩
    rintro ⟨_, _, h⟩
    cases h
  · rw [session, Prog.bind_eq, crashes_bind_iff]
    refine Or.inl (crashes_call_of_missing (fun h => ?_) _)
    exact absurd (hasStub_init_iff.mp h) (by decide +kernel)

end Samples

end ServerContacts
